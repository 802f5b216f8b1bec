import Ant.Library.ByteString
import Ant.Library.Fallback
import Ant.Library.JsonTree

/-! The choice of a target in the `exports` and `imports` maps of a package: pattern
keys, the substitution of the star, conditions and fallbacks. What a target string leads to
on the disk is a parameter here. -/
namespace Ant.Esm.PackageMap
open Library.ByteLayout Library.ByteString Library.OrderedMap Library.JsonTree Library.Fallback

def star : UInt8 := 42
def hash : UInt8 := 35

def cutStar : Bytes → Option (Bytes × Bytes)
  | [] => none
  | char :: rest =>
    if char = star then some ([],rest)
    else (cutStar rest).map fun (before,after) => (char :: before,after)

/-- The part of the request that the star of the key stands for. Keys come from the document and
are read as C strings. -/
def matchesPatternKey (key request : Bytes) : Option Bytes :=
  match cutStar (untilZero key) with
  | none => none
  | some (before,after) =>
    if request.length < before.length + after.length then none
    else if request.take before.length ≠ before then none
    else if request.drop (request.length - after.length) ≠ after then none
    else some ((request.drop before.length).take (request.length - before.length - after.length))

/-- The first star of the pattern is replaced; later ones stay. -/
def replaceStar (pattern capture : Bytes) : Bytes :=
  match cutStar pattern with
  | none => pattern
  | some (before,after) => before ++ capture ++ after

/-- The loader's state that a lookup reads: the conditions a resolve hook has set, the kind of the
import, and what the two ways to follow a target string give. -/
structure Search (ρ : Type) where
  activeConditions : Option (List Bytes)
  preferRequire : Bool
  allowBareSpecifiers : Bool
  tryFile : Bytes → Option ρ
  nodeModule : Bytes → Option ρ

def default_ : Bytes := ascii "default"

def conditions {ρ : Type} (search : Search ρ) : List Bytes :=
  match search.activeConditions with
  | some active => active ++ [default_]
  | none => [if search.preferRequire then ascii "require" else ascii "import",ascii "node",default_]

def relative (target : Bytes) : Bool := target.take 2 == [dot,slash]

variable {ρ : Type}

mutual

/-- The members of an object are resolved where the object is met; which of the results counts is
then looked up condition by condition. -/
def resolveExportsTarget (search : Search ρ) (capture : Bytes) : Value → Option ρ
  | .text value =>
    let target := untilZero value
    if target = [] then none
    else if relative target then search.tryFile (replaceStar (target.drop 2) capture)
    else if !search.allowBareSpecifiers then none
    else if target.head? = some hash then none
    else search.nodeModule target
  | .array items => resolveItems search capture items
  | .object members =>
    (conditions search).findSome? fun condition => (find condition (resolveMembers search capture members)).join
  | _ => none

def resolveItems (search : Search ρ) (capture : Bytes) : Items → Option ρ
  | .nil => none
  | .cons item rest =>
    match resolveExportsTarget search capture item with
    | some resolved => some resolved
    | none => resolveItems search capture rest

def resolveMembers (search : Search ρ) (capture : Bytes) : Members → List (Bytes × Option ρ)
  | .nil => []
  | .cons key value rest => (key,resolveExportsTarget search capture value) :: resolveMembers search capture rest

end

def prefixLength (key : Bytes) : Nat := ((cutStar (untilZero key)).map fun cut => cut.1.length).getD 0

structure Entry where
  key : Bytes
  target : Value
  capture : Bytes
  deriving DecidableEq,Repr

/-- The scan for a pattern key: a key that matches replaces the best one so far unless its own
part before the star is shorter. -/
def scan (request : Bytes) : Option Entry → Members → Option Entry
  | best,.nil => best
  | best,.cons key value rest =>
    match matchesPatternKey key request with
    | none => scan request best rest
    | some capture =>
      if best.any fun entry => prefixLength key < prefixLength entry.key then scan request best rest
      else scan request (some ⟨key,value,capture⟩) rest

def chosenEntry (members : Members) (request : Bytes) : Option Entry :=
  match members.get request with
  | some target => some ⟨request,target,[]⟩
  | none => scan request none members

inductive Step where
  | key (name : Bytes)
  | index (position : Nat)
  deriving DecidableEq,Repr

structure Target where
  route : List Step
  text : Bytes
  bare : Bool
  deriving DecidableEq,Repr

def Target.under (step : Step) (target : Target) : Target := {target with route := step :: target.route}

def follow (search : Search ρ) (target : Target) : Option ρ :=
  if target.bare then search.nodeModule target.text else search.tryFile target.text

def leads (search : Search ρ) (target : Target) : Bool := (follow search target).isSome

def targetOf (search : Search ρ) (capture value : Bytes) : Option Target :=
  let target := untilZero value
  if target = [] then none
  else if relative target then some ⟨[],replaceStar (target.drop 2) capture,false⟩
  else if !search.allowBareSpecifiers then none
  else if target.head? = some hash then none
  else some ⟨[],target,true⟩

mutual

def tried (search : Search ρ) (capture : Bytes) : Value → List Target
  | .text value => (targetOf search capture value).toList
  | .array items => triedItems search capture 0 items
  | .object members =>
    (conditions search).flatMap fun condition =>
      ((find condition (triedMembers search capture members)).getD []).map (Target.under (.key condition))
  | _ => []

def triedItems (search : Search ρ) (capture : Bytes) (position : Nat) : Items → List Target
  | .nil => []
  | .cons item rest =>
    (tried search capture item).map (Target.under (.index position)) ++ triedItems search capture (position+1) rest

def triedMembers (search : Search ρ) (capture : Bytes) : Members → List (Bytes × List Target)
  | .nil => []
  | .cons key value rest => (key,tried search capture value) :: triedMembers search capture rest

end

theorem findSome_under (search : Search ρ) (step : Step) (targets : List Target) :
    (targets.map (Target.under step)).findSome? (follow search) = targets.findSome? (follow search) := by
  rw [List.findSome?_map]
  rfl

theorem find_resolveMembers {search : Search ρ} {capture key : Bytes} {members : Members}
    (same : find key (resolveMembers search capture members) =
      (find key (triedMembers search capture members)).map fun targets => targets.findSome? (follow search)) :
    (find key (resolveMembers search capture members)).join =
      (((find key (triedMembers search capture members)).getD []).map (Target.under (.key key))).findSome? (follow search) := by
  rw [findSome_under,same]
  cases find key (triedMembers search capture members) with
  | none => rfl
  | some targets => rfl

mutual

theorem resolveExportsTarget_eq (search : Search ρ) (capture : Bytes) (value : Value) :
    resolveExportsTarget search capture value = (tried search capture value).findSome? (follow search) := by
  cases value with
  | null => simp [resolveExportsTarget,tried]
  | scalar => simp [resolveExportsTarget,tried]
  | text value =>
    simp only [resolveExportsTarget,tried,targetOf]
    split
    next => rfl
    next =>
      split
      next => simp [follow]
      next =>
        split
        next => rfl
        next =>
          split
          next => rfl
          next => simp [follow]
  | array items =>
    rw [resolveExportsTarget,tried]
    exact resolveItems_eq search capture 0 items
  | object members =>
    rw [resolveExportsTarget,tried,findSome_flatMap]
    congr 1
    funext condition
    exact find_resolveMembers resolveMembers_eq

theorem resolveItems_eq (search : Search ρ) (capture : Bytes) (position : Nat) (items : Items) :
    resolveItems search capture items = (triedItems search capture position items).findSome? (follow search) := by
  cases items with
  | nil => rfl
  | cons item rest =>
    rw [resolveItems,triedItems,List.findSome?_append,findSome_under,← resolveExportsTarget_eq search capture item,
      ← resolveItems_eq search capture (position+1) rest]
    cases resolveExportsTarget search capture item with
    | none => rfl
    | some resolved => rfl

theorem resolveMembers_eq {search : Search ρ} {capture key : Bytes} {members : Members} :
    find key (resolveMembers search capture members) =
      (find key (triedMembers search capture members)).map fun targets => targets.findSome? (follow search) := by
  cases members with
  | nil => rfl
  | cons name value rest =>
    simp only [resolveMembers,triedMembers,find]
    split
    next => rw [Option.map_some,resolveExportsTarget_eq search capture value]
    next => exact resolveMembers_eq

end

def triedFor (search : Search ρ) (members : Members) (request : Bytes) : List Target :=
  match chosenEntry members request with
  | none => []
  | some entry => (tried search entry.capture entry.target).map (Target.under (.key entry.key))

end Ant.Esm.PackageMap
