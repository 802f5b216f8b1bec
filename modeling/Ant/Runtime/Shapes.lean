import Ant.Library.OrderedMap
import Ant.Library.RefCount

/-! Shapes: the tables of property keys that objects share. A shape is a node of the transition
tree, with its children recorded by key and attributes, and at the same time a table that is
changed in place while nobody else holds it. Memory never runs out here. -/
namespace Ant.Runtime.Shapes
open Library.RefCount

abbrev ShapeId := Nat

inductive Key where
  | string (atom : Nat)
  | symbol (offset : Nat)
  deriving DecidableEq,Repr

structure Attributes where
  writable : Bool
  enumerable : Bool
  configurable : Bool
  deriving DecidableEq,Repr

def Attributes.all : Attributes := ⟨true,true,true⟩

inductive Value where
  | undefined
  | object (id : Nat)
  | primitive (code : Nat)
  deriving DecidableEq,Repr

/-- A getter or setter that is there counts even when it is undefined. -/
structure Property where
  key : Key
  attrs : Attributes
  getter : Option Value
  setter : Option Value
  deriving DecidableEq,Repr

def Property.isAccessor (property : Property) : Bool := property.getter.isSome || property.setter.isSome

def dataProperty (key : Key) (attrs : Attributes) : Property := ⟨key,attrs,none,none⟩

/-- The slots of a shape; a deleted one stays as a hole. -/
abbrev Slots := List (Option Property)

abbrev ChildKey := Key × Attributes

structure Table where
  slots : Slots
  parent : Option ShapeId
  absenceGuard : Nat
  deriving DecidableEq,Repr

abbrev Shape := Node ChildKey Table

structure Store where
  shapes : Nodes ChildKey Table
  epoch : Nat
  deriving DecidableEq,Repr

/-- The counter that inline caches compare; it wraps around past zero. -/
def nextEpoch (epoch : Nat) : Nat := if (epoch + 1) % 2^32 = 0 then 1 else (epoch + 1) % 2^32

def bumpEpoch (store : Store) : Store := {store with epoch := nextEpoch store.epoch}

def slotsOf (store : Store) (id : ShapeId) : Slots := ((store.shapes[id]?).map fun shape => shape.content.slots).getD []

def childrenOf (store : Store) (id : ShapeId) : List (ChildKey × ShapeId) := ((store.shapes[id]?).map Node.links).getD []

def lookup (slots : Slots) (key : Key) : Option Nat := slots.findIdx? fun slot => slot.any fun property => property.key == key

def propAt (slots : Slots) (slot : Nat) : Option Property := slots[slot]?.join

def changeTable (store : Store) (id : ShapeId) (f : Table → Table) : Store := {store with shapes := change store.shapes id f}

def changeSlots (store : Store) (id : ShapeId) (f : Slots → Slots) : Store :=
  changeTable store id fun table => {table with slots := f table.slots}

/-- A property added below a guard of the present epoch ends the epoch. -/
def invalidateGuardedAbsence (store : Store) (id : ShapeId) : Store :=
  match (store.shapes[id]?).map fun shape => shape.content.absenceGuard with
  | none => store
  | some 0 => store
  | some (guard+1) =>
    let cleared := changeTable store id fun table => {table with absenceGuard := 0}
    if guard + 1 ≠ store.epoch then cleared else bumpEpoch cleared

def guardAbsence (store : Store) (id : ShapeId) : Store :=
  changeTable store id fun table => {table with absenceGuard := store.epoch}

def withAttrs (attrs : Attributes) (slots : Slots) (slot : Nat) : Slots :=
  slots.modify slot fun entry => entry.map fun property => {property with attrs := attrs}

def isString : Key → Bool
  | .string _ => true
  | .symbol _ => false

/-- A key in place: a new one goes to the end, an old one gets the attributes. -/
def addKey (store : Store) (id : ShapeId) (key : Key) (attrs : Attributes) : Store × Nat :=
  match lookup (slotsOf store id) key with
  | some slot => (bumpEpoch (changeSlots store id fun slots => withAttrs attrs slots slot),slot)
  | none =>
    let added := changeSlots store id fun slots => slots ++ [some (dataProperty key attrs)]
    (if isString key then invalidateGuardedAbsence added id else added,(slotsOf store id).length)

def clone (store : Store) (id : ShapeId) : Store × ShapeId :=
  ({store with shapes := store.shapes ++ [⟨1,[],⟨slotsOf store id,none,0⟩⟩]},store.shapes.length)

def isShared (store : Store) (id : ShapeId) : Bool := 1 < refs store.shapes id

def retain (store : Store) (id : ShapeId) : Store := {store with shapes := Library.RefCount.retain store.shapes id}

/-- A shape in its parent's table is counted there, so a shape that is freed has no parent to be
taken out of. -/
def release (store : Store) (id : ShapeId) : Store :=
  {store with shapes := Library.RefCount.release (fun table => {table with parent := none}) store.shapes id}

def findChild (store : Store) (id : ShapeId) (key : ChildKey) : Option ShapeId :=
  Library.OrderedMap.find key (childrenOf store id)

def recordChild (store : Store) (parent : ShapeId) (key : ChildKey) (child : ShapeId) : Store :=
  match findChild store parent key with
  | some _ => store
  | none =>
    let linked : Store := {retain store child with shapes := link (retain store child).shapes parent key child}
    changeTable linked child fun table => {table with parent := some parent}

def isInTree (store : Store) (id : ShapeId) : Bool :=
  isShared store id || ((store.shapes[id]?).bind fun shape => shape.content.parent).isSome

/-- The way of a holder of `id` to the shape with one more key: in place, to the recorded child, or
to a copy of a child that is recorded now. The holder's reference goes along. -/
def addTr (store : Store) (id : ShapeId) (key : Key) (attrs : Attributes) : Store × ShapeId × Nat :=
  if isInTree store id then
    let child := (findChild store id (key,attrs)).bind fun child => (lookup (slotsOf store child) key).map fun slot => (child,slot)
    match child with
    | some (child,slot) => (release (retain (invalidateGuardedAbsence store id) child) id,child,slot)
    | none =>
      let (copied,shared) := clone store id
      let (added,slot) := addKey copied shared key attrs
      let recorded := release (recordChild added id (key,attrs) shared) shared
      let (cloned,next) := clone recorded shared
      (release (invalidateGuardedAbsence cloned id) id,next,slot)
  else
    let (added,slot) := addKey store id key attrs
    (added,id,slot)

def ensureUnique (store : Store) (id : ShapeId) : Store × ShapeId :=
  if isShared store id then
    let (copied,copy) := clone store id
    (release copied id,copy)
  else (store,id)

def trimHoles (slots : Slots) : Slots := (slots.reverse.dropWhile Option.isNone).reverse

def removeSlot (store : Store) (id : ShapeId) (slot : Nat) : Store :=
  if (propAt (slotsOf store id) slot).isNone then store
  else bumpEpoch (changeSlots store id fun slots => trimHoles (slots.set slot none))

def holes (slots : Slots) : Nat := slots.countP Option.isNone

def shouldCompact (slots : Slots) : Bool := 32 ≤ holes slots && slots.length - holes slots ≤ holes slots

def compact (store : Store) (id : ShapeId) : Store := changeSlots store id fun slots => slots.filter Option.isSome

def setAttrs (store : Store) (id : ShapeId) (key : Key) (attrs : Attributes) : Store :=
  match lookup (slotsOf store id) key with
  | none => store
  | some slot => bumpEpoch (changeSlots store id fun slots => withAttrs attrs slots slot)

def changeProp (store : Store) (id : ShapeId) (slot : Nat) (f : Property → Property) : Store :=
  changeSlots store id fun slots => slots.modify slot fun entry => entry.map f

def pruneChild (store : Store) (parent : ShapeId) (key : ChildKey) : Store :=
  match findChild store parent key with
  | none => store
  | some child =>
    if childrenOf store child = [] then
      let unlinked : Store := {store with shapes := unlink store.shapes parent fun entry => entry.1 ≠ key}
      release (changeTable unlinked child fun table => {table with parent := none}) child
    else store

end Ant.Runtime.Shapes
