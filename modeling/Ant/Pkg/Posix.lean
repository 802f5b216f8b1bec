import Ant.Library.ByteString
import Ant.Library.Effect
import Ant.Library.LinkedTree
import Mathlib.Data.List.Infix
import Mathlib.Logic.Function.Basic

/-! The directory calls of a POSIX system that the extractor makes, relative to an open
directory, and when they stay below it. -/
namespace Ant.Pkg.Posix
open Library.ByteLayout Library.ByteString Library.Effect Library.PathTree Library.LinkedTree List

inductive Errno where
  | notFound
  | notDirectory
  | isDirectory
  | alreadyExists
  | loop
  deriving DecidableEq,Repr

abbrev Location := List Bytes

/-- A file is a number in the tree and its bytes beside it, so that an open file outlives its name.
`touched` records where something was created or opened for writing, `modes` what was given a mode. -/
structure Disk where
  volume : Volume Bytes Nat
  contents : Nat → Bytes
  nextFile : Nat
  touched : List Location
  modes : List (Location × Nat)

def stepsOf (path : Bytes) : List (Step Bytes) :=
  (split slash path).filterMap fun part =>
    if part = [] ∨ part = [dot] then none else if part = [dot,dot] then some .up else some (.into part)

def targetOf (path : Bytes) : Target Bytes := ⟨path.head? == some slash,stepsOf path⟩

def maxLinks : Nat := 40

def errnoOf : WalkError → Errno
  | .notFound => .notFound
  | .notDirectory => .notDirectory
  | .loop => .loop

def resolve (disk : Disk) (dir : Location) (target : Target Bytes) : Except Errno (Place Bytes) :=
  (walk disk.volume maxLinks (if target.absolute then [] else dir) target.steps).mapError errnoOf

/-- The name that a path ends in, itself not followed; `.`, `..` and the root exist already. -/
def resolveName (disk : Disk) (dir : Location) (target : Target Bytes) : Except Errno Location :=
  match target.steps.getLast? with
  | some (.into name) =>
    match resolve disk dir {target with steps := target.steps.dropLast} with
    | .ok (.found parent) => if isDir disk.volume parent then .ok (parent ++ [name]) else .error .notDirectory
    | .ok (.missing _) => .error .notFound
    | .error errno => .error errno
  | _ => .error .alreadyExists

def create (node : Node (Leaf Bytes Nat)) (place : Location) : Disk → Except Errno Disk := fun disk =>
  if (get disk.volume place).isSome then .error .alreadyExists
  else .ok {disk with volume := put disk.volume place node, touched := disk.touched ++ [place]}

def mkdir (dir : Location) (target : Target Bytes) (disk : Disk) : Except Errno Disk :=
  match resolveName disk dir target with
  | .error errno => .error errno
  | .ok place => create .dir place disk

def isDirectory (disk : Disk) (dir : Location) (target : Target Bytes) : Bool :=
  match resolve disk dir target with
  | .ok (.found place) => isDir disk.volume place
  | _ => false

/-- One component of `createDirPath`: what exists already must be a directory. -/
def ensureDir (dir : Location) (target : Target Bytes) (disk : Disk) : Except Errno Disk :=
  match mkdir dir target disk with
  | .ok disk => .ok disk
  | .error .alreadyExists => if isDirectory disk dir target then .ok disk else .error .notDirectory
  | .error errno => .error errno

/-- The components of the path from the first on; the library starts at the longest one that can be made. -/
def createDirPath (dir : Location) (path : Bytes) : Action Errno Disk :=
  forEach (fun steps => update (ensureDir dir ⟨(targetOf path).absolute,steps⟩)) (stepsOf path).inits.tail

def access (disk : Disk) (dir : Location) (path : Bytes) : Bool :=
  match resolve disk dir (targetOf path) with
  | .ok (.found _) => true
  | _ => false

/-- Open for writing with creation and truncation, through links; the number of the open file. -/
def createFile (dir : Location) (path : Bytes) (disk : Disk) : Except Errno (Disk × Nat) :=
  if path.getLast? = some slash then .error .isDirectory else
  match resolve disk dir (targetOf path) with
  | .error errno => .error errno
  | .ok (.found place) =>
    match get disk.volume place with
    | some (.leaf (.file number)) =>
      .ok ({disk with contents := Function.update disk.contents number [], touched := disk.touched ++ [place]},number)
    | _ => .error .isDirectory
  | .ok (.missing place) =>
    match create (.leaf (.file disk.nextFile)) place disk with
    | .error errno => .error errno
    | .ok made =>
      .ok ({made with
        contents := Function.update disk.contents disk.nextFile []
        nextFile := disk.nextFile + 1},disk.nextFile)

def append (number : Nat) (data : Bytes) (disk : Disk) : Disk :=
  {disk with contents := Function.update disk.contents number (disk.contents number ++ data)}

def deleteFile (dir : Location) (path : Bytes) (disk : Disk) : Except Errno Disk :=
  if path.getLast? = some slash then .error .notDirectory else
  match resolveName disk dir (targetOf path) with
  | .error errno => .error errno
  | .ok place =>
    match get disk.volume place with
    | none => .error .notFound
    | some .dir => .error .isDirectory
    | some (.leaf _) => .ok {disk with volume := eraseTree disk.volume place}

def symLink (dir : Location) (target path : Bytes) (disk : Disk) : Except Errno Disk :=
  if path.getLast? = some slash then .error .notFound else
  match resolveName disk dir (targetOf path) with
  | .error errno => .error errno
  | .ok place => create (.leaf (.link (targetOf target))) place disk

def fchmodat (dir : Location) (path : Bytes) (mode : Nat) (disk : Disk) : Disk :=
  match resolve disk dir (targetOf path) with
  | .ok (.found place) => {disk with modes := disk.modes ++ [(place,mode)]}
  | _ => disk

def Inward (target : Target Bytes) : Prop := target.absolute = false ∧ Descends target.steps

/-- Against the disk `start`: nothing outside `root` has changed, everything was created inside,
and the links inside point downwards. -/
structure Confines (root : Location) (start disk : Disk) : Prop where
  outside : ∀ place, ¬ root <+: place → get disk.volume place = get start.volume place
  links : Confined disk.volume root
  touched : ∀ place ∈ disk.touched, place ∈ start.touched ∨ root <+: place

variable {target : Target Bytes} {result : Disk} {path : Bytes}

section Confinement
variable {root : Location} {start disk : Disk}

section
variable {place : Location} (confines : Confines root start disk)
include confines

theorem resolve_inside (inward : Inward target) {place : Place Bytes} (ok : resolve disk root target = .ok place) :
    root <+: place.path := by
  simp only [resolve,inward.1,Bool.false_eq_true,if_false] at ok
  cases walked : walk disk.volume maxLinks root target.steps with
  | error error => simp [walked,Except.mapError] at ok
  | ok reached =>
    rw [walked] at ok
    cases ok
    exact walk_inside confines.links root target.steps place (prefix_refl root) inward.2 walked

theorem resolveName_inside (inward : Inward target) (ok : resolveName disk root target = .ok place) : root <+: place := by
  have parentInward : Inward {target with steps := target.steps.dropLast} :=
    ⟨inward.1,fun member => inward.2 (dropLast_subset _ member)⟩
  unfold resolveName at ok
  split at ok
  next =>
    split at ok
    next parent resolved =>
      split at ok
      next =>
        cases ok
        exact (resolve_inside confines parentInward resolved).trans (prefix_append _ _)
      next => contradiction
    next => contradiction
    next => contradiction
  next => contradiction

theorem create_confines {node : Node (Leaf Bytes Nat)} (inside : root <+: place)
    (down : ∀ target, node = .leaf (.link target) → Inward target) (ok : create node place disk = .ok result) :
    Confines root start result := by
  unfold create at ok
  split at ok
  next => contradiction
  next =>
    cases ok
    refine ⟨?_,confined_put confines.links down,?_⟩
    · intro other outside
      rw [get_put_ne disk.volume place other node (fun same => outside (same ▸ inside))]
      exact confines.outside other outside
    · intro other member
      rcases mem_append.mp member with old | new
      · exact confines.touched other old
      · rw [mem_singleton.mp new]
        exact Or.inr inside

theorem ensureDir_confines (target : Target Bytes) (inward : Inward target) (result : Disk)
    (ok : ensureDir root target disk = .ok result) : Confines root start result := by
  unfold ensureDir mkdir at ok
  split at ok
  next made =>
    cases ok
    split at made
    next => contradiction
    next place resolved =>
      exact create_confines confines (resolveName_inside confines inward resolved)
        (by simp) made
  next =>
    split at ok
    next =>
      cases ok
      exact confines
    next => contradiction
  next => contradiction

end

theorem update_confines {step : Disk → Except Errno Disk}
    (confined : ∀ disk result, Confines root start disk → step disk = .ok result → Confines root start result)
    (disk : Disk) (confines : Confines root start disk) : Confines root start (update step disk).1 := by
  unfold update
  split
  next result ok => exact confined disk result confines ok
  next => exact confines

theorem createDirPath_confines (path : Bytes) (inward : Inward (targetOf path)) (disk : Disk)
    (confines : Confines root start disk) : Confines root start (createDirPath root path disk).1 := by
  refine forEach_keeps (Confines root start) _ _ ?_ disk confines
  intro steps member
  apply update_confines
  intro disk result confines ok
  have part : steps <+: stepsOf path := (mem_inits _ _).mp (mem_of_mem_tail member)
  exact ensureDir_confines confines ⟨(targetOf path).absolute,steps⟩ ⟨inward.1,fun up => inward.2 (part.subset up)⟩ result ok

theorem createFile_confines (inward : Inward (targetOf path)) (confines : Confines root start disk) {number : Nat}
    (ok : createFile root path disk = .ok (result,number)) : Confines root start result := by
  unfold createFile at ok
  split at ok
  next => contradiction
  split at ok
  next => contradiction
  next place resolved =>
    split at ok
    next =>
      cases ok
      refine ⟨confines.outside,confines.links,?_⟩
      intro other member
      rcases mem_append.mp member with old | new
      · exact confines.touched other old
      · rw [mem_singleton.mp new]
        exact Or.inr (resolve_inside confines inward resolved)
    next => contradiction
  next place resolved =>
    split at ok
    next => contradiction
    next made created =>
      cases ok
      have kept := create_confines confines (resolve_inside confines inward resolved) (by simp) created
      exact ⟨kept.outside,kept.links,kept.touched⟩

theorem deleteFile_confines (inward : Inward (targetOf path)) {disk : Disk} (confines : Confines root start disk)
    (ok : deleteFile root path disk = .ok result) : Confines root start result := by
  unfold deleteFile at ok
  split at ok
  next => contradiction
  split at ok
  next => contradiction
  next place resolved =>
    split at ok
    next => contradiction
    next => contradiction
    next =>
      cases ok
      refine ⟨?_,confined_eraseTree confines.links,confines.touched⟩
      intro other outside
      have inside := resolveName_inside confines inward resolved
      rw [get_eraseTree,if_neg fun gone => outside (inside.trans gone.2)]
      exact confines.outside other outside

theorem symLink_confines {target : Bytes} (inward : Inward (targetOf path)) (down : Inward (targetOf target)) {disk : Disk}
    (confines : Confines root start disk) (ok : symLink root target path disk = .ok result) :
    Confines root start result := by
  unfold symLink at ok
  split at ok
  next => contradiction
  split at ok
  next => contradiction
  next place resolved =>
    refine create_confines confines (resolveName_inside confines inward resolved) ?_ ok
    intro other same
    cases same
    exact down

end Confinement

end Ant.Pkg.Posix
