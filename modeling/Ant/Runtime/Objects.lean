import Ant.Runtime.ShapeStore

/-! Objects over shapes, with the assignment sites that cache shapes. Every way in which the runtime
changes an object is one operation here; a program is a sequence of them. The name `length`, the
name `__proto__` and the name `prototype` are the strings 0, 1 and 2. -/
namespace Ant.Runtime.Objects
open Library.RefCount Shapes ShapeStore

def lengthAtom : Nat := 0

def protoAtom : Nat := 1

def prototypeAtom : Nat := 2

/-- Values that are not objects, as a wrapper object keeps one; a symbol may have a description. -/
inductive Primitive where
  | string (code : Nat)
  | number (code : Nat)
  | boolean (code : Nat)
  | bigint (code : Nat)
  | symbol (description : Option Value)
  deriving DecidableEq,Repr

/-- As many values as the object has property slots in use; `identity` is 0 until a site asks for one. -/
structure Object where
  shape : ShapeId
  values : List Value
  proto : Option Nat
  exotic : Bool
  array : Bool
  frozen : Bool
  sealed : Bool
  extensible : Bool
  identity : Nat
  primitive : Option Primitive
  deriving DecidableEq,Repr

/-- The cache of one assignment: a shape with a slot that exists, and a way from one shape to the next. -/
structure PutSite where
  name : Nat
  cached : Option ShapeId
  index : Nat
  epoch : Nat
  fromShape : Option ShapeId
  toShape : Option ShapeId
  slot : Nat
  addEpoch : Nat
  deriving DecidableEq,Repr

/-- An assignment on its slow way, which keeps the shape the object had before. -/
structure Pending where
  site : Nat
  object : Nat
  old : ShapeId
  deriving DecidableEq,Repr

structure Heap where
  store : Store
  objects : List Object
  sites : List PutSite
  pending : List Pending
  /-- Shapes held elsewhere: by sites that read, by object literals. -/
  held : List ShapeId
  identities : Nat
  prototypeEpoch : Nat
  deriving DecidableEq,Repr

def PutSite.holds (site : PutSite) : List ShapeId := site.cached.toList ++ (site.fromShape.toList ++ site.toShape.toList)

/-- The empty shapes, one for each number of values an object can keep in itself; never given up. -/
def roots : List ShapeId := List.range 5

def caches (heap : Heap) : List ShapeId :=
  heap.sites.flatMap PutSite.holds ++ (heap.pending.map Pending.old ++ (heap.held ++ roots))

def holders (heap : Heap) : List ShapeId := heap.objects.map Object.shape ++ caches heap

def start : Heap :=
  ⟨⟨List.replicate 5 ⟨1,[],⟨[],none,0⟩⟩,1⟩,[],[],[],[],0,1⟩

def slotsAt (heap : Heap) (object : Object) : Slots := slotsOf heap.store object.shape

def fit (values : List Value) (count : Nat) : List Value := values ++ List.replicate (count - values.length) .undefined

def write (values : List Value) (slot : Nat) (value : Value) : List Value := (fit values (slot + 1)).set slot value

/-- A write to `prototype` is counted; the counter that wraps ends the epoch. -/
def prototypeWrite (heap : Heap) (key : Key) : Heap :=
  if key = .string prototypeAtom then
    if (heap.prototypeEpoch + 1) % 2^32 = 0 then
      {heap with
        store := bumpEpoch heap.store
        prototypeEpoch := 1}
    else {heap with prototypeEpoch := (heap.prototypeEpoch + 1) % 2^32}
  else heap

def reshape (heap : Heap) (id : Nat) (store : Store) (object : Object) : Heap :=
  {heap with
    store := store
    objects := heap.objects.set id object}

def fresh (limit : Nat) (proto : Option Nat) (exotic array : Bool) : Object :=
  ⟨min limit 4,[],proto,exotic,array,false,false,true,0,none⟩

def create (heap : Heap) (limit : Nat) (proto : Option Nat) (exotic array : Bool) : Heap :=
  {heap with
    store := retain heap.store (min limit 4)
    objects := heap.objects ++ [fresh limit proto exotic array]}

/-- The memory of an object that nothing has as its prototype is used again. -/
def recycle (heap : Heap) (id limit : Nat) (proto : Option Nat) (exotic array : Bool) : Heap :=
  match heap.objects[id]? with
  | none => heap
  | some object =>
    if heap.objects.any fun other => other.proto == some id then heap
    else reshape heap id (release (retain heap.store (min limit 4)) object.shape) (fresh limit proto exotic array)

def mkprop (heap : Heap) (id : Nat) (key : Key) (attrs : Attributes) (value : Value) : Heap :=
  match heap.objects[id]? with
  | none => heap
  | some object =>
    match lookup (slotsAt heap object) key with
    | some slot =>
      let unique := ensureUnique heap.store object.shape
      prototypeWrite (reshape heap id (setAttrs unique.1 unique.2 key attrs)
        {object with
          shape := unique.2
          values := write object.values slot value}) key
    | none =>
      let added := addTr heap.store object.shape key attrs
      prototypeWrite (reshape heap id added.1
        {object with
          shape := added.2.1
          values := write (fit object.values (slotsOf added.1 added.2.1).length) added.2.2 value}) key

def Property.describe (attrs : Attributes) (getter setter : Option (Option Value)) (property : Property) : Property :=
  {property with
    attrs := attrs
    getter := getter.getD property.getter
    setter := setter.getD property.setter}

def ensureSlot (heap : Heap) (id : Nat) (key : Key) : Heap :=
  match heap.objects[id]? with
  | none => heap
  | some object =>
    match lookup (slotsAt heap object) key with
    | some _ => heap
    | none =>
      let added := addTr heap.store object.shape key Attributes.all
      reshape heap id added.1
        {object with
          shape := added.2.1
          values := fit object.values (slotsOf added.1 added.2.1).length}

def applyDescriptor (heap : Heap) (id : Nat) (key : Key) (attrs : Attributes) (getter setter : Option (Option Value)) : Heap :=
  match heap.objects[id]? with
  | none => heap
  | some object =>
    match lookup (slotsAt heap object) key with
    | none => heap
    | some slot =>
      let unique := ensureUnique heap.store object.shape
      reshape heap id (bumpEpoch (changeProp unique.1 unique.2 slot (Property.describe attrs getter setter)))
        {object with shape := unique.2}

def describe (heap : Heap) (id : Nat) (key : Key) (attrs : Attributes) (getter setter : Option (Option Value)) : Heap :=
  applyDescriptor (ensureSlot heap id key) id key attrs getter setter

def assign (heap : Heap) (id : Nat) (key : Key) (value : Value) : Heap :=
  match heap.objects[id]? with
  | none => heap
  | some object =>
    match lookup (slotsAt heap object) key with
    | none => heap
    | some slot =>
      if slot < object.values.length then
        prototypeWrite (reshape heap id heap.store {object with values := object.values.set slot value}) key
      else heap

def compactValues (slots : Slots) (values : List Value) : List Value :=
  (slots.zipIdx.filter fun entry => entry.1.isSome).map fun entry => values.getD entry.2 .undefined

def delete (heap : Heap) (id : Nat) (key : Key) : Heap :=
  match heap.objects[id]? with
  | none => heap
  | some object =>
    match lookup (slotsAt heap object) key with
    | none => heap
    | some slot =>
      if object.frozen || object.sealed || !((propAt (slotsAt heap object) slot).any fun property => property.attrs.configurable) then heap
      else
        let unique := ensureUnique heap.store object.shape
        let removed := removeSlot unique.1 unique.2 slot
        let slots := slotsOf removed unique.2
        if object.values.length ≤ slot then reshape heap id removed {object with shape := unique.2}
        else
          let cleared := object.values.set slot .undefined
          if shouldCompact slots then
            reshape heap id (compact removed unique.2)
              {object with
                shape := unique.2
                values := compactValues slots cleared}
          else
            reshape heap id removed
              {object with
                shape := unique.2
                values := (fit cleared slots.length).take slots.length}

def setProto (heap : Heap) (id : Nat) (proto : Option Nat) : Heap :=
  match heap.objects[id]? with
  | none => heap
  | some object => reshape heap id (bumpEpoch heap.store) {object with proto := proto}

def initProto (heap : Heap) (id : Nat) (proto : Option Nat) : Heap :=
  match heap.objects[id]? with
  | none => heap
  | some object => reshape heap id heap.store {object with proto := proto}

/-- The flags of freezing, sealing and preventing extensions; the attributes change by descriptors. -/
def restrict (heap : Heap) (id : Nat) (frozen sealed : Bool) : Heap :=
  match heap.objects[id]? with
  | none => heap
  | some object =>
    reshape heap id heap.store
      {object with
        frozen := object.frozen || frozen
        sealed := object.sealed || sealed || frozen
        extensible := false}

def wrap (heap : Heap) (id : Nat) (primitive : Primitive) : Heap :=
  match heap.objects[id]? with
  | none => heap
  | some object => reshape heap id heap.store {object with primitive := some primitive}

def identify (heap : Heap) (id : Nat) : Heap :=
  match heap.objects[id]? with
  | none => heap
  | some object =>
    if object.identity ≠ 0 then heap
    else
      let next := (heap.identities + 1) % 2^32
      let wrapped := next = 0
      let identity := if wrapped then 1 else next
      {heap with
        store := if wrapped then bumpEpoch heap.store else heap.store
        objects := heap.objects.set id {object with identity := identity}
        identities := identity}

def swapRef (store : Store) (old : Option ShapeId) (new : ShapeId) : Store :=
  if old = some new then store
  else
    match old with
    | none => retain store new
    | some old => release (retain store new) old

def namedData (name : Nat) (property : Property) : Bool := property.key == .string name && !property.isAccessor

def hitsSlot (heap : Heap) (site : PutSite) (object : Object) : Bool :=
  !object.exotic && site.epoch == heap.store.epoch && site.cached == some object.shape &&
    decide (site.index < object.values.length) &&
    (propAt (slotsAt heap object) site.index).any fun property => namedData site.name property && property.attrs.writable

def hitsAdd (heap : Heap) (site : PutSite) (object : Object) : Bool :=
  !object.exotic && !object.frozen && !object.sealed && object.extensible && !object.array && site.name != protoAtom &&
    site.addEpoch == heap.store.epoch && site.fromShape == some object.shape && site.toShape.isSome &&
    (lookup (slotsAt heap object) (.string site.name)).isNone

def fastSlot (heap : Heap) (site : PutSite) (object : Object) : Option Nat :=
  if object.exotic || (object.array && site.name == lengthAtom) then none
  else
    (lookup (slotsAt heap object) (.string site.name)).filter fun slot =>
      decide (slot < object.values.length) &&
        (propAt (slotsAt heap object) slot).any fun property => !property.isAccessor && property.attrs.writable

def setSite (heap : Heap) (index : Nat) (site : PutSite) : Heap := {heap with sites := heap.sites.set index site}

def fillCached (heap : Heap) (index : Nat) (site : PutSite) (shape : ShapeId) (slot : Nat) : Heap :=
  setSite {heap with store := swapRef heap.store site.cached shape} index
    {site with
      cached := some shape
      index := slot
      epoch := heap.store.epoch}

def putAdd (heap : Heap) (index : Nat) (site : PutSite) (id : Nat) (object : Object) (toShape : ShapeId) (value : Value) : Heap :=
  let moved := reshape heap id (release (retain heap.store toShape) object.shape)
    {object with
      shape := toShape
      values := write object.values site.slot value}
  fillCached (prototypeWrite moved (.string site.name)) index site toShape site.slot

def putSlot (heap : Heap) (site : PutSite) (id : Nat) (object : Object) (slot : Nat) (value : Value) : Heap :=
  prototypeWrite (reshape heap id heap.store {object with values := object.values.set slot value}) (.string site.name)

/-- An assignment at a site. Without a hit and without a slot it goes the slow way, which is whatever
operations follow until it returns. -/
def put (heap : Heap) (index id : Nat) (value : Value) : Heap :=
  match heap.sites[index]?,heap.objects[id]? with
  | some site,some object =>
    if hitsSlot heap site object then putSlot heap site id object site.index value
    else if hitsAdd heap site object then putAdd heap index site id object (site.toShape.getD 0) value
    else
      match fastSlot heap site object with
      | some slot => fillCached (putSlot heap site id object slot value) index site object.shape slot
      | none =>
        {heap with
          store := retain heap.store object.shape
          pending := ⟨index,id,object.shape⟩ :: heap.pending}
  | _,_ => heap

def fillAdd (heap : Heap) (index : Nat) (site : PutSite) (old new : ShapeId) (slot : Nat) : Heap :=
  setSite {heap with store := swapRef (swapRef heap.store site.fromShape old) site.toShape new} index
    {site with
      fromShape := some old
      toShape := some new
      slot := slot
      addEpoch := heap.store.epoch}

def fillSlot (heap : Heap) (site : PutSite) (object : Object) : Option Nat :=
  if object.exotic then none
  else
    (lookup (slotsAt heap object) (.string site.name)).filter fun slot =>
      decide (slot < object.values.length) &&
        (propAt (slotsAt heap object) slot).any fun property => namedData site.name property && property.attrs.writable

def recordsWay (heap : Heap) (site : PutSite) (object : Object) (old : ShapeId) (slot : Nat) : Bool :=
  old != object.shape && site.name != protoAtom && !object.frozen && !object.sealed && object.extensible && !object.array &&
    (propAt (slotsAt heap object) slot).any fun property => property.attrs == Attributes.all

def fill (heap : Heap) (task : Pending) : Heap :=
  match heap.sites[task.site]?,heap.objects[task.object]? with
  | some site,some object =>
    match fillSlot heap site object with
    | none => heap
    | some slot =>
      let cached := fillCached heap task.site site object.shape slot
      if recordsWay heap site object task.old slot then
        fillAdd cached task.site
          {site with
            cached := some object.shape
            index := slot
            epoch := heap.store.epoch} task.old object.shape slot
      else cached
  | _,_ => heap

def finish (heap : Heap) (good : Bool) : Heap :=
  match heap.pending with
  | [] => heap
  | task :: rest =>
    let filled := if good then fill heap task else heap
    {filled with
      store := release filled.store task.old
      pending := rest}

def hold (heap : Heap) (shape : ShapeId) : Heap :=
  if shape ∈ holders heap then
    {heap with
      store := retain heap.store shape
      held := shape :: heap.held}
  else heap

def drop (heap : Heap) (shape : ShapeId) : Heap :=
  if shape ∈ heap.held then
    {heap with
      store := release heap.store shape
      held := heap.held.erase shape}
  else heap

def build (heap : Heap) (shape : ShapeId) (name : Nat) : Heap :=
  if shape ∈ heap.held ∧ lookup (slotsOf heap.store shape) (.string name) = none then
    let added := addTr heap.store shape (.string name) Attributes.all
    {heap with
      store := added.1
      held := added.2.1 :: heap.held.erase shape}
  else heap

def adopt (heap : Heap) (id : Nat) (shape : ShapeId) : Heap :=
  match heap.objects[id]? with
  | none => heap
  | some object =>
    if shape ∈ heap.held ∧ slotsAt heap object = [] then
      reshape heap id (release (retain heap.store shape) object.shape)
        {object with
          shape := shape
          values := fit object.values (slotsOf heap.store shape).length}
    else heap

def guardObject (heap : Heap) (id : Nat) : Heap :=
  match heap.objects[id]? with
  | none => heap
  | some object => {heap with store := guardAbsence heap.store object.shape}

inductive Op where
  | create (limit : Nat) (proto : Option Nat) (exotic array : Bool)
  | recycle (id limit : Nat) (proto : Option Nat) (exotic array : Bool)
  | mkprop (id : Nat) (key : Key) (attrs : Attributes) (value : Value)
  | describe (id : Nat) (key : Key) (attrs : Attributes) (getter setter : Option (Option Value))
  | assign (id : Nat) (key : Key) (value : Value)
  | delete (id : Nat) (key : Key)
  | setProto (id : Nat) (proto : Option Nat)
  | initProto (id : Nat) (proto : Option Nat)
  | restrict (id : Nat) (frozen sealed : Bool)
  | wrap (id : Nat) (primitive : Primitive)
  | identify (id : Nat)
  | newSite (name : Nat)
  | put (site id : Nat) (value : Value)
  | finish (good : Bool)
  | hold (shape : ShapeId)
  | drop (shape : ShapeId)
  | build (shape : ShapeId) (name : Nat)
  | adopt (id : Nat) (shape : ShapeId)
  | guardObject (id : Nat)
  | prune (parent : ShapeId) (key : ChildKey)
  | collect
  deriving DecidableEq,Repr

def step (heap : Heap) : Op → Heap
  | .create limit proto exotic array => create heap limit proto exotic array
  | .recycle id limit proto exotic array => recycle heap id limit proto exotic array
  | .mkprop id key attrs value => mkprop heap id key attrs value
  | .describe id key attrs getter setter => describe heap id key attrs getter setter
  | .assign id key value => assign heap id key value
  | .delete id key => delete heap id key
  | .setProto id proto => setProto heap id proto
  | .initProto id proto => initProto heap id proto
  | .restrict id frozen sealed => restrict heap id frozen sealed
  | .wrap id primitive => wrap heap id primitive
  | .identify id => identify heap id
  | .newSite name => {heap with sites := heap.sites ++ [⟨name,none,0,0,none,none,0,0⟩]}
  | .put site id value => put heap site id value
  | .finish good => finish heap good
  | .hold shape => hold heap shape
  | .drop shape => drop heap shape
  | .build shape name => build heap shape name
  | .adopt id shape => adopt heap id shape
  | .guardObject id => guardObject heap id
  | .prune parent key => {heap with store := pruneChild heap.store parent key}
  | .collect => {heap with store := bumpEpoch heap.store}

def run (heap : Heap) (ops : List Op) : Heap := ops.foldl step heap

end Ant.Runtime.Objects
