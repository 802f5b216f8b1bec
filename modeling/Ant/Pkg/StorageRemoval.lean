import Ant.Pkg.Posix
import Ant.Pkg.Storage

/-! `storage_file_remove` of `storage.c` where symbolic links may stand: what the recursion takes
away, and when it keeps to the entries below its path. -/
namespace Ant.Pkg.StorageRemoval
open Library.ByteLayout Library.Effect Library.PathTree Library.LinkedTree List
open Posix (Disk Location resolve resolveName maxLinks)
open Storage (StorageError pathMax)

/-- `remove` and `rmdir`: the last name of the path itself, not what it links to. -/
def detach (allowed : Volume Bytes Nat → Location → Bool) (cwd : Location) (path : Target Bytes) (disk : Disk) :
    Except StorageError Disk :=
  match resolveName disk cwd path with
  | .error _ => .error .ioError
  | .ok place =>
    if allowed disk.volume place then .ok {disk with volume := eraseTree disk.volume place} else .error .ioError

def removeFile : Location → Target Bytes → Disk → Except StorageError Disk :=
  detach fun volume place => get volume place matches some (.leaf _)

def rmdir : Location → Target Bytes → Disk → Except StorageError Disk :=
  detach fun volume place => isDir volume place && (children volume place).isEmpty

def child (path : Target Bytes) (name : Bytes) : Target Bytes := {path with steps := path.steps ++ [.into name]}

/-- The path grows with every call, so that running out of `fuel` is a path that `stat` finds too long. -/
def fileRemove (cwd : Location) : Nat → Target Bytes → Bool → Action StorageError Disk
  | 0,_,_ => fail .ioError
  | fuel+1,path,recursive => fun disk =>
    match resolve disk cwd path with
    | .error .notFound => (disk,none)
    | .ok (.missing _) => (disk,none)
    | .error _ => (disk,some .ioError)
    | .ok (.found place) =>
      if isDir disk.volume place then
        if recursive then
          andThen (forEach (fun name => fileRemove cwd fuel (child path name) true) (children disk.volume place))
            (update (rmdir cwd path)) disk
        else update (rmdir cwd path) disk
      else update (removeFile cwd path) disk

def storageFileRemove (cwd : Location) (path : Target Bytes) (recursive : Bool) : Action StorageError Disk :=
  fileRemove cwd pathMax path recursive

def start (cwd : Location) (path : Target Bytes) : Location := if path.absolute then [] else cwd

/-- The entry that a path names; its last name is not followed. -/
def Entry (disk : Disk) (cwd : Location) (path : Target Bytes) (place : Location) : Prop :=
  match path.steps.getLast? with
  | some (.into name) => ∃ links parent, Leads disk.volume links (start cwd path) path.steps.dropLast parent ∧
      place = parent ++ [name]
  | _ => ∃ links, Leads disk.volume links (start cwd path) path.steps place

def Below (disk : Disk) (cwd : Location) (path : Target Bytes) (place : Location) : Prop :=
  ∃ root, Entry disk cwd path root ∧ root <+: place

/-- Every link at an `inside` place that leads to a directory leads to an `inside` one. -/
def LinksStay (inside : Location → Prop) (disk : Disk) : Prop :=
  ∀ place target, inside place → get disk.volume place = some (.leaf (.link target)) → ∀ links < maxLinks, ∀ dir,
    Leads disk.volume links (if target.absolute then [] else place.dropLast) target.steps dir →
      get disk.volume dir = some .dir → inside dir

/-- Against the disk `origin`: nothing new, nothing gone that is not `inside`. -/
structure Shrunk (inside : Location → Prop) (origin disk : Disk) : Prop where
  within : ∀ place node, get disk.volume place = some node → get origin.volume place = some node
  outside : ∀ place, ¬ inside place → get disk.volume place = get origin.volume place
  contents : disk.contents = origin.contents

/-- Along `path` the removal works `inside` only. -/
structure Guarded (inside : Location → Prop) (origin : Disk) (cwd : Location) (path : Target Bytes) : Prop where
  entry : ∀ name, path.steps.getLast? = some (.into name) → ∀ links ≤ maxLinks, ∀ parent,
    Leads origin.volume links (start cwd path) path.steps.dropLast parent → get origin.volume parent = some .dir →
      inside (parent ++ [name])
  dirs : ∀ links ≤ maxLinks, ∀ dir, Leads origin.volume links (start cwd path) path.steps dir →
    get origin.volume dir = some .dir → inside dir

variable {disk : Disk} {cwd place : Location} {path : Target Bytes}

theorem leads_of_resolve (ok : resolve disk cwd path = .ok (.found place)) :
    ∃ links ≤ maxLinks, Leads disk.volume links (start cwd path) path.steps place := by
  unfold resolve at ok
  cases walked : walk disk.volume maxLinks (if path.absolute then [] else cwd) path.steps with
  | error error => simp [walked,Except.mapError] at ok
  | ok reached =>
    rw [walked] at ok
    cases ok
    exact leads_of_walk walked

section Removal
variable {inside : Location → Prop} {origin disk next : Disk} {cwd : Location} {path : Target Bytes}

theorem Shrunk.erase (shrunk : Shrunk inside origin disk) (closed : ∀ lower, place <+: lower → inside lower) :
    Shrunk inside origin {disk with volume := eraseTree disk.volume place} := by
  refine ⟨?_,?_,shrunk.contents⟩
  · intro other node stored
    rw [get_eraseTree] at stored
    split at stored
    next => contradiction
    next => exact shrunk.within other node stored
  · intro other outside
    rw [get_eraseTree,if_neg fun gone => outside (closed other gone.2)]
    exact shrunk.outside other outside

theorem detach_shrinks (closed : ∀ place lower, inside place → place <+: lower → inside lower)
    (guarded : Guarded inside origin cwd path) {allowed : Volume Bytes Nat → Location → Bool}
    (shrunk : Shrunk inside origin disk) (ok : detach allowed cwd path disk = .ok next) : Shrunk inside origin next := by
  unfold detach resolveName at ok
  split at ok
  next => contradiction
  next place named =>
    split at named
    next name last =>
      split at named
      next parent resolved =>
        split at named
        next isDirectory =>
          cases named
          obtain ⟨links,few,leads⟩ := leads_of_resolve resolved
          have parentDir := shrunk.within _ _ ((isDir_iff _ _).mp isDirectory)
          have held := guarded.entry name last links few parent (leads.mono shrunk.within) parentDir
          split at ok
          next =>
            cases ok
            exact shrunk.erase fun lower => closed _ lower held
          next => contradiction
        next => contradiction
      next => contradiction
      next => contradiction
    next => contradiction

theorem dirs_of_entry (stay : LinksStay inside origin) {base : Location} {steps : List (Step Bytes)} {name : Bytes}
    (entry : ∀ links ≤ maxLinks, ∀ parent, Leads origin.volume links base steps parent →
      get origin.volume parent = some .dir → inside (parent ++ [name]))
    (links : Nat) (few : links ≤ maxLinks) (dir : Location) (leads : Leads origin.volume links base (steps ++ [.into name]) dir)
    (isDirectory : get origin.volume dir = some .dir) : inside dir := by
  obtain ⟨parent,first,second,total,before,last⟩ := leads.append_split
  have held : (get origin.volume (parent ++ [name])).isSome → inside (parent ++ [name]) := fun present =>
    entry first (by omega) parent before (get_above _ _ _ (cons_ne_nil _ _) present)
  cases last with
  | into stored onward =>
    cases onward
    exact held (by rw [stored]; rfl)
  | file stored => exact held (by rw [stored]; rfl)
  | @link used _ _ _ _ target stored onward =>
    have near := held (by rw [stored]; rfl)
    have few : used < maxLinks := by omega
    apply stay _ target near stored used few dir _ isDirectory
    rw [dropLast_concat]
    rwa [append_nil] at onward

theorem Guarded.child (guarded : Guarded inside origin cwd path) (stay : LinksStay inside origin)
    (closed : ∀ place lower, inside place → place <+: lower → inside lower) (name : Bytes) :
    Guarded inside origin cwd (child path name) := by
  have entry : ∀ links ≤ maxLinks, ∀ parent, Leads origin.volume links (start cwd path) path.steps parent →
      get origin.volume parent = some .dir → inside (parent ++ [name]) := fun links few parent leads isDirectory =>
    closed parent _ (guarded.dirs links few parent leads isDirectory) (prefix_append _ _)
  refine ⟨?_,dirs_of_entry stay entry⟩
  intro other last links few parent leads isDirectory
  rw [StorageRemoval.child,dropLast_concat] at leads
  rw [StorageRemoval.child,getLast?_concat] at last
  cases last
  exact entry links few parent leads isDirectory

theorem fileRemove_shrinks (stay : LinksStay inside origin)
    (closed : ∀ place lower, inside place → place <+: lower → inside lower) (fuel : Nat) (recursive : Bool)
    (guarded : Guarded inside origin cwd path) (shrunk : Shrunk inside origin disk) :
    Shrunk inside origin (fileRemove cwd fuel path recursive disk).1 := by
  induction fuel generalizing path recursive disk with
  | zero => exact shrunk
  | succ fuel ih =>
    have detached (allowed : Volume Bytes Nat → Location → Bool) (disk : Disk) (shrunk : Shrunk inside origin disk) :
        Shrunk inside origin (update (detach allowed cwd path) disk).1 :=
      update_keeps _ (fun _ _ shrunk ok => detach_shrinks closed guarded shrunk ok) disk shrunk
    unfold fileRemove
    split
    next => exact shrunk
    next => exact shrunk
    next => exact shrunk
    next =>
      split
      next =>
        split
        next =>
          apply andThen_keeps (Shrunk inside origin) _ _ _ (detached _) disk shrunk
          intro disk shrunk
          apply forEach_keeps (Shrunk inside origin) _ _ _ disk shrunk
          intro name _ disk shrunk
          exact ih true (guarded.child stay closed name) shrunk
        next => exact detached _ disk shrunk
      next => exact detached _ disk shrunk

end Removal

theorem Below.closed (disk : Disk) (cwd : Location) (path : Target Bytes) (place lower : Location)
    (below : Below disk cwd path place) (lies : place <+: lower) : Below disk cwd path lower := by
  obtain ⟨root,entry,above⟩ := below
  exact ⟨root,entry,above.trans lies⟩

theorem guarded_below (stay : LinksStay (Below disk cwd path) disk) : Guarded (Below disk cwd path) disk cwd path := by
  have entry (name : Bytes) (last : path.steps.getLast? = some (.into name)) (links : Nat) (parent : Location)
      (leads : Leads disk.volume links (start cwd path) path.steps.dropLast parent) :
      Below disk cwd path (parent ++ [name]) := by
    refine ⟨parent ++ [name],?_,prefix_refl _⟩
    simp only [Entry,last]
    exact ⟨links,parent,leads,rfl⟩
  refine ⟨fun name last links _ parent leads _ => entry name last links parent leads,?_⟩
  intro links few dir leads isDirectory
  by_cases named : ∃ name, path.steps.getLast? = some (.into name)
  · obtain ⟨name,last⟩ := named
    rw [← dropLast_append_getLast? _ last] at leads
    exact dirs_of_entry stay (fun links _ parent leads _ => entry name last links parent leads) links few dir leads isDirectory
  · refine ⟨dir,?_,prefix_refl _⟩
    unfold Entry
    split
    next name last => exact absurd ⟨name,last⟩ named
    next => exact ⟨links,leads⟩

/-- The removal takes away nothing but what lies at or below the entry of its path. -/
def RemovesOnlyBelow (disk : Disk) (cwd : Location) (path : Target Bytes) : Prop :=
  (storageFileRemove cwd path true disk).1.contents = disk.contents ∧ ∀ place, ¬ Below disk cwd path place →
    get (storageFileRemove cwd path true disk).1.volume place = get disk.volume place

theorem remove_keeps_outside (disk : Disk) (cwd : Location) (path : Target Bytes)
    (stay : LinksStay (Below disk cwd path) disk) : RemovesOnlyBelow disk cwd path := by
  have begins : Shrunk (Below disk cwd path) disk disk := ⟨fun _ _ stored => stored,fun _ _ => rfl,rfl⟩
  have shrunk := fileRemove_shrinks stay (Below.closed disk cwd path) pathMax true (guarded_below stay) begins
  exact ⟨shrunk.contents,shrunk.outside⟩

def linkedDisk : Disk where
  volume := put (put (put (put empty [[100]] .dir) [[111]] .dir) [[100],[108]] (.leaf (.link ⟨true,[.into [111]]⟩)))
    [[111],[102]] (.leaf (.file 0))
  contents := fun _ => []
  nextFile := 1
  touched := []
  modes := []

/-- `d/l` links to `/o`: removing `d` takes `o/f` away. -/
theorem linked_file_removed : get linkedDisk.volume [[111],[102]] = some (.leaf (.file 0)) ∧
    ¬ RemovesOnlyBelow linkedDisk [] ⟨true,[.into [100]]⟩ := by
  refine ⟨by decide +kernel,fun removes => ?_⟩
  have apart : ¬ Below linkedDisk [] ⟨true,[.into [100]]⟩ [[111],[102]] := by
    intro below
    obtain ⟨root,⟨links,parent,leads,rfl⟩,above⟩ := below
    cases leads
    exact absurd above (by decide)
  have kept := removes.2 _ apart
  exact absurd kept (by decide +kernel)

def innerLink : Disk :=
  {linkedDisk with
    volume := put (put (eraseTree linkedDisk.volume [[100],[108]]) [[100],[115]] .dir)
      [[100],[108]] (.leaf (.link ⟨false,[.into [115]]⟩))}

theorem remove_keeps_outside_inner_link : LinksStay (Below innerLink [] ⟨true,[.into [100]]⟩) innerLink ∧
    RemovesOnlyBelow innerLink [] ⟨true,[.into [100]]⟩ := by
  have stay : LinksStay (Below innerLink [] ⟨true,[.into [100]]⟩) innerLink := by
    intro place target inside stored links few dir leads isDirectory
    have there : place = [[100],[108]] ∧ target = ⟨false,[.into [115]]⟩ := by
      have below : place ≠ [] := by
        rintro rfl
        simp at stored
      have member := (mem_entries_iff _ _ below).mpr stored
      have entries : innerLink.volume.entries = [([[100]],.dir),([[111]],.dir),([[111],[102]],.leaf (.file 0)),
        ([[100],[115]],.dir),([[100],[108]],.leaf (.link ⟨false,[.into [115]]⟩))] := by decide +kernel
      simpa [entries] using member
    obtain ⟨rfl,rfl⟩ := there
    refine ⟨[[100]],⟨0,[],.here _,rfl⟩,?_⟩
    cases leads with
    | into _ onward =>
      cases onward
      exact ⟨[[115]],rfl⟩
    | file stored => exact ⟨[[115]],rfl⟩
    | link stored =>
      have isDir : get innerLink.volume [[100],[115]] = some .dir := by decide +kernel
      simp [isDir] at stored
  exact ⟨stay,remove_keeps_outside _ _ _ stay⟩

end Ant.Pkg.StorageRemoval
