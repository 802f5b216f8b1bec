import Ant.Library.PathTree

/-! Trees with symbolic links: how a path is walked, and when every walk stays below a
directory. -/
namespace Ant.Library.LinkedTree
open PathTree List

variable {ν φ : Type} [DecidableEq ν]

inductive Step (ν : Type) where
  | up
  | into (name : ν)
  deriving DecidableEq,Repr

structure Target (ν : Type) where
  absolute : Bool
  steps : List (Step ν)
  deriving DecidableEq,Repr

inductive Leaf (ν φ : Type) where
  | file (file : φ)
  | link (target : Target ν)
  deriving DecidableEq,Repr

abbrev Volume (ν φ : Type) [DecidableEq ν] := Tree ν (Leaf ν φ)

inductive WalkError where
  | notFound
  | notDirectory
  | loop
  deriving DecidableEq,Repr

/-- Where a walk ends: at a node, or at a free name in a directory. -/
inductive Place (ν : Type) where
  | found (path : List ν)
  | missing (path : List ν)
  deriving DecidableEq,Repr

def Place.path : Place ν → List ν
  | .found path => path
  | .missing path => path

def walkWith (volume : Volume ν φ) (follow : List ν → List (Step ν) → Except WalkError (Place ν)) :
    List ν → List (Step ν) → Except WalkError (Place ν)
  | current,[] => .ok (.found current)
  | current,.up :: rest => walkWith volume follow current.dropLast rest
  | current,.into name :: rest =>
    match get volume (current ++ [name]) with
    | some .dir => walkWith volume follow (current ++ [name]) rest
    | some (.leaf (.file _)) => if rest = [] then .ok (.found (current ++ [name])) else .error .notDirectory
    | some (.leaf (.link target)) => follow (if target.absolute then [] else current) (target.steps ++ rest)
    | none => if rest = [] ∧ isDir volume current then .ok (.missing (current ++ [name])) else .error .notFound

def walk (volume : Volume ν φ) : Nat → List ν → List (Step ν) → Except WalkError (Place ν)
  | 0 => walkWith volume fun _ _ => .error .loop
  | links+1 => walkWith volume (walk volume links)

def Descends (steps : List (Step ν)) : Prop := .up ∉ steps

/-- The links at or below `root` point downwards. -/
def Confined (volume : Volume ν φ) (root : List ν) : Prop :=
  ∀ path target, root <+: path → get volume path = some (.leaf (.link target)) →
    target.absolute = false ∧ Descends target.steps

variable {follow : List ν → List (Step ν) → Except WalkError (Place ν)} {path names current : List ν}

section Inside
variable {volume : Volume ν φ} {root : List ν}

section
variable (confined : Confined volume root)
include confined

theorem walkWith_inside
    (onward : ∀ current steps place, root <+: current → Descends steps → follow current steps = .ok place → root <+: place.path)
    (current : List ν) {steps : List (Step ν)} {place : Place ν} (inside : root <+: current) (descends : Descends steps)
    (ok : walkWith volume follow current steps = .ok place) : root <+: place.path := by
  induction steps generalizing current with
  | nil =>
    cases ok
    exact inside
  | cons step rest ih =>
    have restDescends : Descends rest := fun member => descends (mem_cons_of_mem _ member)
    cases step with
    | up => exact absurd mem_cons_self descends
    | into name =>
      have below : root <+: current ++ [name] := inside.trans (prefix_append _ _)
      simp only [walkWith] at ok
      split at ok
      next => exact ih _ below restDescends ok
      next =>
        split at ok
        next =>
          cases ok
          exact below
        next => contradiction
      next target stored =>
        obtain ⟨relative,down⟩ := confined _ target below stored
        rw [relative] at ok
        exact onward current _ place inside (fun member => (mem_append.mp member).elim down restDescends) ok
      next =>
        split at ok
        next =>
          cases ok
          exact below
        next => contradiction

theorem walk_inside {links : Nat} (current : List ν) (steps : List (Step ν)) (place : Place ν) (inside : root <+: current)
    (descends : Descends steps) (ok : walk volume links current steps = .ok place) : root <+: place.path := by
  induction links generalizing current steps place with
  | zero => exact walkWith_inside confined (fun _ _ _ _ _ looped => by contradiction) current inside descends ok
  | succ links ih =>
    exact walkWith_inside confined (fun current steps place inside down ok => ih current steps place inside down ok)
      current inside descends ok

theorem confined_eraseTree : Confined (eraseTree volume path) root := by
  intro other target inside stored
  rw [get_eraseTree] at stored
  split at stored
  next => contradiction
  next => exact confined other target inside stored

theorem confined_put [DecidableEq φ] {node : Node (Leaf ν φ)}
    (down : ∀ target, node = .leaf (.link target) → target.absolute = false ∧ Descends target.steps) :
    Confined (put volume path node) root := by
  intro other target inside stored
  by_cases fits : Fits volume path
  · rw [get_put volume other node fits] at stored
    split at stored
    next => exact down target (Option.some.inj stored)
    next => exact confined other target inside stored
  · rw [put_of_not_fits volume node fits] at stored
    exact confined other target inside stored

end

end Inside

section Plain
variable {volume : Volume ν φ}

end Plain

/-- Where a path leads when so many links are followed on the way. -/
inductive Leads (volume : Volume ν φ) : Nat → List ν → List (Step ν) → List ν → Prop where
  | here (current : List ν) : Leads volume 0 current [] current
  | up {links : Nat} {current place : List ν} {rest : List (Step ν)} (onward : Leads volume links current.dropLast rest place) :
    Leads volume links current (.up :: rest) place
  | into {links : Nat} {current place : List ν} {name : ν} {rest : List (Step ν)}
    (stored : get volume (current ++ [name]) = some .dir) (onward : Leads volume links (current ++ [name]) rest place) :
    Leads volume links current (.into name :: rest) place
  | file {current : List ν} {name : ν} {file : φ} (stored : get volume (current ++ [name]) = some (.leaf (.file file))) :
    Leads volume 0 current [.into name] (current ++ [name])
  | link {links : Nat} {current place : List ν} {name : ν} {rest : List (Step ν)} {target : Target ν}
    (stored : get volume (current ++ [name]) = some (.leaf (.link target)))
    (onward : Leads volume links (if target.absolute then [] else current) (target.steps ++ rest) place) :
    Leads volume (links + 1) current (.into name :: rest) place

section Leading
variable {volume larger : Volume ν φ} {links : Nat} {current place : List ν} {steps : List (Step ν)}

theorem leads_of_walkWith
    (onward : ∀ current steps place, follow current steps = .ok (.found place) → ∃ used < links, Leads volume used current steps place)
    (ok : walkWith volume follow current steps = .ok (.found place)) :
    ∃ used ≤ links, Leads volume used current steps place := by
  induction steps generalizing current with
  | nil =>
    cases ok
    exact ⟨0,Nat.zero_le _,.here _⟩
  | cons step rest ih =>
    cases step with
    | up =>
      obtain ⟨used,few,leads⟩ := ih ok
      exact ⟨used,few,.up leads⟩
    | into name =>
      simp only [walkWith] at ok
      split at ok
      next stored =>
        obtain ⟨used,few,leads⟩ := ih ok
        exact ⟨used,few,.into stored leads⟩
      next stored =>
        split at ok
        next last =>
          cases ok
          rw [last]
          exact ⟨0,Nat.zero_le _,.file stored⟩
        next => contradiction
      next stored =>
        obtain ⟨used,few,leads⟩ := onward _ _ _ ok
        exact ⟨used + 1,few,.link stored leads⟩
      next => split at ok <;> cases ok

theorem leads_of_walk (ok : walk volume links current steps = .ok (.found place)) :
    ∃ used ≤ links, Leads volume used current steps place := by
  induction links generalizing current steps place with
  | zero => exact leads_of_walkWith (fun _ _ _ looped => by contradiction) ok
  | succ links ih =>
    apply leads_of_walkWith _ ok
    intro current steps place ok
    obtain ⟨used,few,leads⟩ := ih ok
    exact ⟨used,Nat.lt_succ_of_le few,leads⟩

theorem Leads.mono (within : ∀ path node, get volume path = some node → get larger path = some node)
    (leads : Leads volume links current steps place) : Leads larger links current steps place := by
  induction leads with
  | here current => exact .here current
  | up _ ih => exact .up ih
  | into stored _ ih => exact .into (within _ _ stored) ih
  | file stored => exact .file (within _ _ stored)
  | link stored _ ih => exact .link (within _ _ stored) ih

theorem Leads.append_split {after : List (Step ν)} (leads : Leads volume links current (steps ++ after) place) :
    ∃ middle first second, first + second = links ∧ Leads volume first current steps middle ∧
      Leads volume second middle after place := by
  generalize whole : steps ++ after = all at leads
  induction leads generalizing steps with
  | here current =>
    obtain ⟨rfl,rfl⟩ := append_eq_nil_iff.mp whole
    exact ⟨current,0,0,rfl,.here _,.here _⟩
  | @up links current place rest onward ih =>
    cases steps with
    | nil =>
      obtain rfl : after = _ := whole
      exact ⟨current,0,links,Nat.zero_add _,.here _,.up onward⟩
    | cons step steps =>
      obtain ⟨rfl,same⟩ := List.cons.inj whole
      obtain ⟨middle,first,second,total,before,behind⟩ := ih same
      exact ⟨middle,first,second,total,.up before,behind⟩
  | @into links current place name rest stored onward ih =>
    cases steps with
    | nil =>
      obtain rfl : after = _ := whole
      exact ⟨current,0,links,Nat.zero_add _,.here _,.into stored onward⟩
    | cons step steps =>
      obtain ⟨rfl,same⟩ := List.cons.inj whole
      obtain ⟨middle,first,second,total,before,behind⟩ := ih same
      exact ⟨middle,first,second,total,.into stored before,behind⟩
  | @file current name file stored =>
    cases steps with
    | nil =>
      obtain rfl : after = _ := whole
      exact ⟨current,0,0,rfl,.here _,.file stored⟩
    | cons step steps =>
      obtain ⟨rfl,same⟩ := List.cons.inj whole
      obtain ⟨rfl,rfl⟩ := append_eq_nil_iff.mp same
      exact ⟨_,0,0,rfl,.file stored,.here _⟩
  | @link links current place name rest target stored onward ih =>
    cases steps with
    | nil =>
      obtain rfl : after = _ := whole
      exact ⟨current,0,links + 1,Nat.zero_add _,.here _,.link stored onward⟩
    | cons step steps =>
      obtain ⟨rfl,same⟩ := List.cons.inj whole
      obtain ⟨middle,first,second,total,before,behind⟩ := ih (by rw [append_assoc]; exact congrArg _ same)
      exact ⟨middle,first + 1,second,by omega,.link stored before,behind⟩

end Leading

end Ant.Library.LinkedTree
