import Ant.Runtime.HeapRuns

/-! Reading a property at one site. For an object the site remembers the shape of the receiver, and for a property
of a prototype also the first prototype, by its address and its number, and the object that holds the
property. For a primitive it remembers the holder, or that there is none. A hit reads the holder's slot; the lookup
without the cache walks the chain. The name `description` is the string 3. -/
namespace Ant.Runtime.GetField
open Library.RefCount Shapes ShapeStore Objects HeapSteps Option

def descriptionAtom : Nat := 3

inductive Receiver where
  | object (id : Nat)
  | primitive (value : Primitive)
  deriving DecidableEq,Repr

/-- The primitives that sites remember lookups for. -/
inductive Kind where
  | string
  | number
  | boolean
  deriving DecidableEq,Repr

def kindOf : Primitive → Option Kind
  | .string _ => some .string
  | .number _ => some .number
  | .boolean _ => some .boolean
  | .bigint _ => none
  | .symbol _ => none

/-- `js_primitive_prototype`. -/
structure Prototypes where
  ofKind : Kind → Option Nat
  bigint : Option Nat
  symbol : Option Nat

def Prototypes.of (prototypes : Prototypes) : Primitive → Option Nat
  | .string _ => prototypes.ofKind .string
  | .number _ => prototypes.ofKind .number
  | .boolean _ => prototypes.ofKind .boolean
  | .bigint _ => prototypes.bigint
  | .symbol _ => prototypes.symbol

/-- What the site compares the receiver with: its prototype, or the mark of a kind of primitives. -/
inductive Guard where
  | proto (id : Option Nat)
  | found (kind : Kind)
  | missing (kind : Kind)
  deriving DecidableEq,Repr

/-- `digit`: the name begins with a digit. `second` is not counted as a holder of its shape. -/
structure GetSite where
  name : Nat
  digit : Bool
  cached : Option ShapeId
  holder : Nat
  guard : Guard
  index : Nat
  isOwn : Bool
  epoch : Nat
  protoId : Nat
  second : Option ShapeId
  deriving DecidableEq,Repr

structure State where
  heap : Heap
  site : GetSite
  deriving DecidableEq,Repr

def readSlot (heap : Heap) (site : GetSite) (source : Object) : Option Value :=
  if (propAt (slotsAt heap source) site.index).any (namedData site.name) then source.values[site.index]? else none

def tryGetHit (heap : Heap) (site : GetSite) (receiver : Object) : Option Value :=
  if site.epoch ≠ heap.store.epoch ∨ site.cached ≠ some receiver.shape then none
  else if site.isOwn then readSlot heap site receiver
  else
    match receiver.proto with
    | none => none
    | some id =>
      if site.guard ≠ .proto (some id) then none
      else
        match heap.objects[id]?,heap.objects[site.holder]? with
        | some proto,some holder => if proto.identity ≠ site.protoId ∨ holder.exotic then none else readSlot heap site holder
        | _,_ => none

def tryGetHitPrim (heap : Heap) (site : GetSite) (kind : Kind) : Option Value :=
  if site.epoch ≠ heap.store.epoch ∨ site.guard ≠ .found kind then none
  else
    heap.objects[site.holder]?.bind fun holder =>
      if holder.exotic ∨ site.cached ≠ some holder.shape then none else readSlot heap site holder

def tryGetMissPrim (heap : Heap) (site : GetSite) (kind : Kind) : Option Value :=
  if site.epoch ≠ heap.store.epoch ∨ site.guard ≠ .missing kind then none
  else
    heap.objects[site.holder]?.bind fun first =>
      if site.cached ≠ some first.shape then none
      else
        match site.second,first.proto with
        | none,none => some .undefined
        | some shape,some next =>
          heap.objects[next]?.bind fun second => if second.shape = shape then some .undefined else none
        | _,_ => none

/-- `sv_prim_ic_lookup` leaves these primitives to the lookup without the cache. -/
def remembered (site : GetSite) (value : Primitive) : Option Kind :=
  if site.name = lengthAtom then none else (kindOf value).filter fun kind => !(kind == .string && site.digit)

/-- The answer the site gives by itself; lengths and exotic receivers are never cached. -/
def hit (state : State) : Receiver → Option Value
  | .object id =>
    state.heap.objects[id]?.bind fun receiver =>
      if state.site.name = lengthAtom ∨ receiver.exotic then none else tryGetHit state.heap state.site receiver
  | .primitive value =>
    (remembered state.site value).bind fun kind =>
      (tryGetHitPrim state.heap state.site kind).or (tryGetMissPrim state.heap state.site kind)

/-- The walk that looks for a plain property to remember. A chain that comes back to itself is given
up, which the number of objects stands for. -/
def probeGetChain (heap : Heap) (name : Nat) : Nat → Option Nat → Option (Nat × Nat)
  | 0,_ => none
  | _,none => none
  | fuel+1,some id =>
    heap.objects[id]?.bind fun object =>
      if object.exotic then none
      else
        match lookup (slotsAt heap object) (.string name) with
        | some slot => if (propAt (slotsAt heap object) slot).any (namedData name) then some (id,slot) else none
        | none => probeGetChain heap name fuel object.proto

/-- One or two objects without the name, and the shape of the second. -/
def probeChainAbsent (heap : Heap) (name id : Nat) : Option (Option ShapeId) :=
  heap.objects[id]?.bind fun first =>
    if first.exotic ∨ (lookup (slotsAt heap first) (.string name)).isSome then none
    else
      match first.proto with
      | none => some none
      | some next =>
        heap.objects[next]?.bind fun second =>
          if second.exotic ∨ (lookup (slotsAt heap second) (.string name)).isSome ∨ second.proto.isSome then none
          else some (some second.shape)

/-- The objects from the first one on, up to the one where the walk stops. -/
def between (heap : Heap) (stop : Option Nat) : Nat → Option Nat → List Nat
  | 0,_ => []
  | _,none => []
  | fuel+1,some id => if stop = some id then [] else id :: between heap stop fuel (heap.objects[id]?.bind Object.proto)

def guardAll (heap : Heap) (nodes : List Nat) : Heap := nodes.foldl guardObject heap

def remember (state : State) (shape : ShapeId) (site : GetSite) : State :=
  ⟨{state.heap with store := swapRef state.heap.store state.site.cached shape},
    {site with
      cached := some shape
      epoch := state.heap.store.epoch}⟩

def fillGet (state : State) (receiver : Object) (id holder slot : Nat) : State :=
  let kept := remember state receiver.shape
    {state.site with
      holder := holder
      guard := .proto receiver.proto
      index := slot
      isOwn := holder == id
      protoId := 0}
  match receiver.proto with
  | some proto =>
    if holder = id then kept
    else
      let numbered := identify kept.heap proto
      ⟨numbered,{kept.site with protoId := (numbered.objects[proto]?.map Object.identity).getD 0}⟩
  | none => kept

def fillPrim (state : State) (kind : Kind) (first holder slot : Nat) (source : Object) : State :=
  let guarded := guardAll state.heap (between state.heap (some holder) state.heap.objects.length (some first))
  remember {state with heap := guarded} source.shape
    {state.site with
      holder := holder
      guard := .found kind
      index := slot
      isOwn := false
      protoId := 0}

def fillMissing (state : State) (kind : Kind) (first : Nat) (source : Object) (second : Option ShapeId) : State :=
  let guarded := guardAll state.heap (between state.heap none 2 (some first))
  remember {state with heap := guarded} source.shape
    {state.site with
      holder := first
      guard := .missing kind
      index := 0
      isOwn := false
      second := second}

def getPrim (state : State) (kind : Kind) (first : Nat) : State :=
  match probeGetChain state.heap state.site.name state.heap.objects.length (some first) with
  | some (holder,slot) =>
    match state.heap.objects[holder]? with
    | some source => fillPrim state kind first holder slot source
    | none => state
  | none =>
    match probeChainAbsent state.heap state.site.name first,state.heap.objects[first]? with
    | some second,some source => fillMissing state kind first source second
    | _,_ => state

def get (prototypes : Prototypes) (state : State) (receiver : Receiver) : State :=
  if (hit state receiver).isSome then state
  else
    match receiver with
    | .object id =>
      match state.heap.objects[id]? with
      | none => state
      | some object =>
        if state.site.name = lengthAtom ∨ object.exotic then state
        else
          match probeGetChain state.heap state.site.name state.heap.objects.length (some id) with
          | none => state
          | some (holder,slot) => fillGet state object id holder slot
    | .primitive value =>
      match remembered state.site value,prototypes.of value with
      | some kind,some first => getPrim state kind first
      | _,_ => state

/-- `own` is what an array or a string answers by itself: its length, or a character. -/
inductive Read where
  | absent
  | data (value : Value)
  | accessor (getter : Option Value)
  | exotic (id : Nat)
  | own
  deriving DecidableEq,Repr

def Read.value : Read → Option Value
  | .absent => some .undefined
  | .data value => some value
  | .accessor _ => none
  | .exotic _ => none
  | .own => none

def lookupChain (heap : Heap) (name : Nat) : Nat → Option Nat → Read
  | 0,_ => .absent
  | _,none => .absent
  | fuel+1,some id =>
    match heap.objects[id]? with
    | none => .absent
    | some object =>
      if object.exotic then .exotic id
      else
        match lookup (slotsAt heap object) (.string name) with
        | some slot =>
          match propAt (slotsAt heap object) slot with
          | none => .data .undefined
          | some property => if property.isAccessor then .accessor property.getter else .data (object.values.getD slot .undefined)
        | none => lookupChain heap name fuel object.proto

/-- What a primitive, or the object that wraps it, answers before any property is looked for. -/
def ofPrimitive (name : Nat) : Primitive → Option Read
  | .string _ => if name = lengthAtom then some .own else none
  | .symbol description => if name = descriptionAtom then some (.data (description.getD .undefined)) else none
  | _ => none

/-- `sv_prop_get_at`. -/
def uncached (prototypes : Prototypes) (heap : Heap) (name : Nat) (digit : Bool) : Receiver → Read
  | .object id =>
    match heap.objects[id]? with
    | none => .absent
    | some object =>
      match object.primitive.bind (ofPrimitive name) with
      | some read => read
      | none =>
        if object.array ∧ name = lengthAtom then .own else lookupChain heap name heap.objects.length (some id)
  | .primitive value =>
    match ofPrimitive name value with
    | some read => read
    | none =>
      if kindOf value = some .string ∧ digit then .own
      else lookupChain heap name heap.objects.length (prototypes.of value)

inductive Act where
  | op (op : Op)
  | get (receiver : Receiver)
  deriving DecidableEq,Repr

def act (prototypes : Prototypes) (state : State) : Act → State
  | .op op => {state with heap := step state.heap op}
  | .get receiver => get prototypes state receiver

def startOf (prototypes : Prototypes) (site : GetSite) : Option Nat :=
  match site.guard with
  | .proto id => id
  | .found kind => prototypes.ofKind kind
  | .missing kind => prototypes.ofKind kind

def stopOf (site : GetSite) : Option Nat :=
  match site.guard with
  | .proto _ => some site.holder
  | .found _ => some site.holder
  | .missing _ => none

def identityOf (heap : Heap) (id : Nat) : Nat := (heap.objects[id]?.map Object.identity).getD 0

/-- The site answers for another object than the receiver. -/
def inherits (site : GetSite) : Bool :=
  match site.guard with
  | .proto _ => !site.isOwn
  | _ => true

/-- The number that the site knows is that of the prototype. -/
def answers (heap : Heap) (site : GetSite) : Bool :=
  match site.guard with
  | .proto (some proto) => identityOf heap proto == site.protoId
  | _ => true

/-- What a lookup sees of an object it passes: whether it is exotic, its prototype, and whether it has the name. -/
def frontOf (heap : Heap) (name node : Nat) : Option (Bool × Option Nat × Bool) :=
  heap.objects[node]?.map fun object =>
    (object.exotic,object.proto,(lookup (slotsAt heap object) (.string name)).isSome)

/-- While the site may answer for other objects than the receiver, the operation leaves the objects in front of the
holder as a lookup sees them, and does not give the number the site knows to another prototype. -/
def Undisturbed (prototypes : Prototypes) (state : State) (op : Op) : Prop :=
  let after := step state.heap op
  state.site.epoch = after.store.epoch → inherits state.site = true → answers after state.site = true →
    answers state.heap state.site = true ∧
      ∀ node ∈ between state.heap (stopOf state.site) state.heap.objects.length (startOf prototypes state.site),
        frontOf after state.site.name node = frontOf state.heap state.site.name node

instance (prototypes : Prototypes) (state : State) (op : Op) : Decidable (Undisturbed prototypes state op) :=
  inferInstanceAs (Decidable (state.site.epoch = (step state.heap op).store.epoch → inherits state.site = true →
    answers (step state.heap op) state.site = true → answers state.heap state.site = true ∧
      ∀ node ∈ between state.heap (stopOf state.site) state.heap.objects.length (startOf prototypes state.site),
        frontOf (step state.heap op) state.site.name node = frontOf state.heap state.site.name node))

/-- The condition on one step; the counter of epochs does not come back to the one the site has. -/
def Quiet (prototypes : Prototypes) (state : State) : Act → Prop
  | .op op => Undisturbed prototypes state op ∧
      (state.site.epoch = (step state.heap op).store.epoch → state.site.epoch = state.heap.store.epoch)
  | .get _ => True

def Chain (heap : Heap) (name : Nat) (stop : Option Nat) : Option Nat → List Nat → Prop
  | first,[] => first = stop
  | first,node :: rest => first = some node ∧ stop ≠ some node ∧
      ∃ next, frontOf heap name node = some (false,next,false) ∧ Chain heap name stop next rest

/-- How many objects a lookup sees beside those in front: the receiver and the holder, the holder, or none. -/
def beside : Guard → Nat
  | .proto _ => 2
  | .found _ => 1
  | .missing _ => 0

def Valid (prototypes : Prototypes) (heap : Heap) (site : GetSite) : Prop :=
  site.epoch = heap.store.epoch → inherits site = true → answers heap site = true → ∀ shape ∈ site.cached,
    (∀ proto, site.guard = .proto proto → lookup (slotsOf heap.store shape) (.string site.name) = none) ∧
      ∃ nodes, Chain heap site.name (stopOf site) (startOf prototypes site) nodes ∧
        nodes.length + beside site.guard ≤ heap.objects.length

structure GetInv (prototypes : Prototypes) (state : State) : Prop where
  inv : Inv false state.heap state.site.cached.toList
  valid : Valid prototypes state.heap state.site

variable {prototypes : Prototypes} {nodes : List Nat} {ext : List ShapeId} {object : Object} {stop first : Option Nat}

section
variable {heap after : Heap} {name id fuel : Nat}

theorem frontOf_eq {seen : Bool × Option Nat × Bool} (front : frontOf heap name id = some seen) :
    ∃ object, heap.objects[id]? = some object ∧ object.exotic = seen.1 ∧ object.proto = seen.2.1 ∧
      (lookup (slotsAt heap object) (.string name)).isSome = seen.2.2 := by
  obtain ⟨object,found,rfl⟩ := map_eq_some_iff.mp front
  exact ⟨object,found,rfl,rfl,rfl⟩

theorem between_chain (chain : Chain heap name stop first nodes) (enough : nodes.length ≤ fuel) :
    ∀ node ∈ nodes, node ∈ between heap stop fuel first := by
  induction nodes generalizing first fuel with
  | nil => intro node member; contradiction
  | cons head rest ih =>
    obtain ⟨rfl,different,next,front,onward⟩ := chain
    obtain ⟨fuel,rfl⟩ : ∃ less, fuel = less + 1 := ⟨fuel - 1,by simp at enough; omega⟩
    obtain ⟨object,found,-,link,-⟩ := frontOf_eq front
    have points : (heap.objects[head]?).bind Object.proto = next := by rw [found]; exact link
    intro node member
    rw [between,if_neg different,points]
    rcases List.mem_cons.mp member with same | later
    · rw [same]
      exact List.mem_cons_self
    · exact List.mem_cons_of_mem _ (ih onward (by simpa using enough) node later)

theorem Chain.kept (chain : Chain heap name stop first nodes)
    (same : ∀ node ∈ nodes, frontOf after name node = frontOf heap name node) : Chain after name stop first nodes := by
  induction nodes generalizing first with
  | nil => exact chain
  | cons head rest ih =>
    obtain ⟨rfl,different,next,front,onward⟩ := chain
    exact ⟨rfl,different,next,(same head List.mem_cons_self).trans front,
      ih onward fun node member => same node (List.mem_cons_of_mem _ member)⟩

theorem lookupChain_next {object : Object} (found : heap.objects[id]? = some object) (plain : object.exotic = false)
    (absent : lookup (slotsAt heap object) (.string name) = none) :
    lookupChain heap name (fuel + 1) (some id) = lookupChain heap name fuel object.proto := by
  simp only [lookupChain,found,plain,absent,Bool.false_eq_true,if_false]

theorem lookupChain_chain (fuel : Nat) (chain : Chain heap name stop first nodes) :
    lookupChain heap name (nodes.length + fuel) first = lookupChain heap name fuel stop := by
  induction nodes generalizing first with
  | nil =>
    obtain rfl : first = stop := chain
    rw [List.length_nil,Nat.zero_add]
  | cons head rest ih =>
    obtain ⟨rfl,_,next,front,onward⟩ := chain
    obtain ⟨object,found,plain,link,without⟩ := frontOf_eq front
    have absent : lookup (slotsAt heap object) (.string name) = none := by simpa using without
    have count : (head :: rest).length + fuel = rest.length + fuel + 1 := by rw [List.length_cons]; omega
    rw [count,lookupChain_next found plain absent,link]
    exact ih onward

theorem lookupChain_holder {site : GetSite} {source : Object} {value : Value} (inv : Inv false heap ext)
    (found : heap.objects[id]? = some source) (plain : source.exotic = false)
    (read : readSlot heap site source = some value) : lookupChain heap site.name (fuel + 1) (some id) = .data value := by
  unfold readSlot at read
  split at read
  next named =>
    cases there : propAt (slotsAt heap source) site.index with
    | none => simp [there] at named
    | some property =>
      simp only [there,any_some,namedData,Bool.and_eq_true,beq_iff_eq,Bool.not_eq_true'] at named
      have located : lookup (slotsAt heap source) (.string site.name) = some site.index :=
        lookup_of_propAt (inv.sound.distinct source.shape) there named.1
      simp only [lookupChain,found,plain,located,there,named.2,Bool.false_eq_true,if_false]
      rw [List.getD_eq_getElem?_getD,read]
      rfl
  next => contradiction

end

section Answers
variable {state : State} {value : Value} (inv : GetInv prototypes state)
include inv

theorem GetInv.tryGetHit {id : Nat} {receiver : Object} (found : state.heap.objects[id]? = some receiver)
    (plain : receiver.exotic = false) (answer : tryGetHit state.heap state.site receiver = some value) :
    lookupChain state.heap state.site.name state.heap.objects.length (some id) = .data value := by
  have size : id < state.heap.objects.length := (List.getElem?_eq_some_iff.mp found).1
  unfold GetField.tryGetHit at answer
  split at answer
  next => contradiction
  next current =>
    rw [not_or,not_not,not_not] at current
    split at answer
    next =>
      obtain ⟨rest,enough⟩ : ∃ rest, state.heap.objects.length = rest + 1 := ⟨state.heap.objects.length - 1,by omega⟩
      rw [enough]
      exact lookupChain_holder inv.inv found plain answer
    next notOwn =>
      split at answer
      next => contradiction
      next proto link =>
        split at answer
        next => contradiction
        next same =>
          rw [not_not] at same
          split at answer
          next first holder there kept =>
            split at answer
            next => contradiction
            next known =>
              rw [not_or,not_not] at known
              have number : answers state.heap state.site = true := by simp [answers,same,identityOf,there,known.1]
              obtain ⟨absent,nodes,chain,enough⟩ :=
                inv.valid current.1 (by simpa [inherits,same] using notOwn) number receiver.shape current.2
              rw [stopOf,startOf,same] at chain
              rw [same,beside] at enough
              -- The receiver and the objects in front of the holder lack the name.
              obtain ⟨rest,total⟩ : ∃ rest, state.heap.objects.length = nodes.length + (rest + 1) + 1 :=
                ⟨state.heap.objects.length - nodes.length - 2,by omega⟩
              rw [total,lookupChain_next found plain (absent _ same),link,lookupChain_chain (rest + 1) chain]
              exact lookupChain_holder inv.inv kept (by simpa using known.2) answer
          next => contradiction

theorem GetInv.tryGetHitPrim {kind : Kind} (answer : tryGetHitPrim state.heap state.site kind = some value) :
    lookupChain state.heap state.site.name state.heap.objects.length (prototypes.ofKind kind) = .data value := by
  unfold GetField.tryGetHitPrim at answer
  split at answer
  next => contradiction
  next current =>
    rw [not_or,not_not,not_not] at current
    obtain ⟨holder,found,read⟩ := bind_eq_some_iff.mp answer
    split at read
    next => contradiction
    next known =>
      rw [not_or,not_not] at known
      have number : answers state.heap state.site = true := by simp [answers,current.2]
      obtain ⟨-,nodes,chain,enough⟩ := inv.valid current.1 (by simp [inherits,current.2]) number holder.shape known.2
      rw [stopOf,startOf,current.2] at chain
      rw [current.2,beside] at enough
      obtain ⟨rest,total⟩ : ∃ rest, state.heap.objects.length = nodes.length + (rest + 1) :=
        ⟨state.heap.objects.length - nodes.length - 1,by omega⟩
      rw [total,lookupChain_chain (rest + 1) chain]
      exact lookupChain_holder inv.inv found (by simpa using known.1) read

theorem GetInv.tryGetMissPrim {kind : Kind} (answer : tryGetMissPrim state.heap state.site kind = some value) :
    value = .undefined ∧
      lookupChain state.heap state.site.name state.heap.objects.length (prototypes.ofKind kind) = .absent := by
  unfold GetField.tryGetMissPrim at answer
  split at answer
  next => contradiction
  next current =>
    rw [not_or,not_not,not_not] at current
    obtain ⟨source,found,read⟩ := bind_eq_some_iff.mp answer
    split at read
    next => contradiction
    next known =>
      rw [not_not] at known
      have number : answers state.heap state.site = true := by simp [answers,current.2]
      obtain ⟨-,nodes,chain,enough⟩ := inv.valid current.1 (by simp [inherits,current.2]) number source.shape known
      rw [stopOf,startOf,current.2] at chain
      rw [current.2,beside] at enough
      obtain ⟨rest,total⟩ : ∃ rest, state.heap.objects.length = nodes.length + rest :=
        ⟨state.heap.objects.length - nodes.length,by omega⟩
      constructor
      · split at read
        next => exact (some.inj read).symm
        next =>
          obtain ⟨second,-,same⟩ := bind_eq_some_iff.mp read
          split at same
          next => exact (some.inj same).symm
          next => contradiction
        next => contradiction
      · rw [total,lookupChain_chain rest chain]
        cases rest <;> rfl

end Answers

/-- The receiver is an object around a symbol that is asked for the description of the symbol. -/
def describes (heap : Heap) (name : Nat) : Receiver → Bool
  | .object id => name == descriptionAtom && (heap.objects[id]?.bind Object.primitive).any fun primitive =>
      match primitive with
      | .symbol _ => true
      | _ => false
  | .primitive _ => false

theorem of_kind {value : Primitive} {kind : Kind} (same : kindOf value = some kind) : prototypes.of value = prototypes.ofKind kind := by
  cases value <;> cases same <;> rfl

theorem GetInv.hit {state : State} (inv : GetInv prototypes state) (receiver : Receiver) (value : Value)
    (answer : hit state receiver = some value) (plain : describes state.heap state.site.name receiver = false) :
    (uncached prototypes state.heap state.site.name state.site.digit receiver).value = some value := by
  cases receiver with
  | object id =>
    obtain ⟨receiver,found,answer⟩ := bind_eq_some_iff.mp answer
    split at answer
    next => contradiction
    next tracked =>
      rw [not_or] at tracked
      have read := inv.tryGetHit found (by simpa using tracked.2) answer
      have direct : receiver.primitive.bind (ofPrimitive state.site.name) = none := by
        cases wrapped : receiver.primitive with
        | none => rfl
        | some primitive =>
          cases primitive with
          | string => simp [ofPrimitive,tracked.1]
          | symbol => simpa [describes,found,wrapped,ofPrimitive] using plain
          | _ => rfl
      have other : ¬(receiver.array = true ∧ state.site.name = lengthAtom) := fun both => tracked.1 both.2
      simp only [uncached,found,direct,if_neg other,read,Read.value]
  | primitive primitive =>
    obtain ⟨kind,kept,answer⟩ := bind_eq_some_iff.mp answer
    unfold remembered at kept
    split at kept
    next => contradiction
    next named =>
      obtain ⟨same,plain⟩ := filter_eq_some_iff.mp kept
      have direct : ofPrimitive state.site.name primitive = none := by
        cases primitive with
        | string => simp [ofPrimitive,named]
        | symbol => contradiction
        | _ => rfl
      have other : ¬(kindOf primitive = some .string ∧ state.site.digit = true) := by
        rintro ⟨string,digit⟩
        obtain rfl : Kind.string = kind := some.inj (string.symm.trans same)
        simp [digit] at plain
      simp only [uncached,direct,if_neg other,of_kind same]
      rcases or_eq_some_iff.mp answer with read | ⟨-,read⟩
      · rw [inv.tryGetHitPrim read]
        rfl
      · obtain ⟨rfl,absent⟩ := inv.tryGetMissPrim read
        rw [absent]
        rfl

section Steps
variable {heap after : Heap} {name node : Nat}

theorem GetInv.quiet {state : State} (inv : GetInv prototypes state) (op : Op) (still : Quiet prototypes state (.op op)) :
    GetInv prototypes (act prototypes state (.op op)) := by
  obtain ⟨undisturbed,lasting⟩ := still
  have leads := inv.inv.step op (by simp)
  refine ⟨leads.inv,?_⟩
  intro current other number shape cached
  obtain ⟨before,spared⟩ := undisturbed current other number
  obtain ⟨absent,nodes,chain,enough⟩ := inv.valid (lasting current) other before shape cached
  have held : shape ∈ state.site.cached.toList := by
    rw [show state.site.cached = some shape from cached]
    exact List.mem_singleton_self shape
  refine ⟨fun proto guard => ?_,nodes,?_,enough.trans leads.grows⟩
  · show lookup (slotsOf (step state.heap op).store shape) _ = none
    rw [leads.frame shape held]
    exact absent proto guard
  · exact chain.kept fun node member => spared node (between_chain chain (by omega) node member)

theorem frontOf_congr (objects : after.objects = heap.objects) (slots : ∀ id, slotsOf after.store id = slotsOf heap.store id) :
    frontOf after name node = frontOf heap name node := by
  simp only [frontOf,objects,slotsAt,slots]

theorem frontOf_identify (id : Nat) : frontOf (identify heap id) name node = frontOf heap name node := by
  unfold identify
  split
  next => rfl
  next object found =>
    split
    next => rfl
    next =>
      have inside : id < heap.objects.length := (List.getElem?_eq_some_iff.mp found).1
      have slots (shape : ShapeId) :
          slotsOf (if (heap.identities + 1) % 2^32 = 0 then bumpEpoch heap.store else heap.store) shape = slotsOf heap.store shape := by
        split
        next => exact (alike_bumpEpoch heap.store).slotsOf shape
        next => rfl
      by_cases here : id = node
      · subst here
        simp only [frontOf,List.getElem?_set_self inside,found,map_some,slotsAt,slots]
      · simp only [frontOf,List.getElem?_set_ne here,slotsAt,slots]

theorem guardAll_keeps (nodes : List Nat) (heap : Heap) : (guardAll heap nodes).objects = heap.objects ∧
    (guardAll heap nodes).store.epoch = heap.store.epoch ∧
    ∀ id, slotsOf (guardAll heap nodes).store id = slotsOf heap.store id := by
  induction nodes generalizing heap with
  | nil => exact ⟨rfl,rfl,fun _ => rfl⟩
  | cons node rest ih =>
    obtain ⟨objects,epoch,slots⟩ := ih (guardObject heap node)
    have one : (guardObject heap node).objects = heap.objects ∧ (guardObject heap node).store.epoch = heap.store.epoch ∧
        ∀ id, slotsOf (guardObject heap node).store id = slotsOf heap.store id := by
      unfold guardObject
      split
      next => exact ⟨rfl,rfl,fun _ => rfl⟩
      next => exact ⟨rfl,rfl,alike_guardAbsence.slotsOf⟩
    exact ⟨objects.trans one.1,epoch.trans one.2.1,fun id => (slots id).trans (one.2.2 id)⟩

theorem Inv.guardAll (nodes : List Nat) (inv : Inv false heap ext) : Inv false (guardAll heap nodes) ext := by
  induction nodes generalizing heap with
  | nil => exact inv
  | cons node rest ih => exact ih (inv.guardObject node).inv

theorem Inv.remember {cached : Option ShapeId} {id : Nat} (inv : Inv false heap cached.toList)
    (found : heap.objects[id]? = some object) :
    Inv false {heap with store := swapRef heap.store cached object.shape} [object.shape] := by
  refine ⟨?_,by simp,fun shape member => (swapRef_slots _ _ _ shape).trans (inv.empty shape member)⟩
  have moved := swapRef_sound (inv.sound.perm List.perm_append_comm) (inv.shape_refs found)
  exact moved.perm (List.perm_append_singleton _ _).symm

section Fill
variable {state : State} {id holder slot : Nat} {receiver : Object} {kind : Kind}

theorem probeGetChain_chain (fuel : Nat) {first : Option Nat} (found : probeGetChain heap name fuel first = some (holder,slot)) :
    (∃ nodes, Chain heap name (some holder) first nodes ∧ nodes.length + 1 ≤ fuel) ∧
      ∃ object, heap.objects[holder]? = some object ∧ (lookup (slotsAt heap object) (.string name)).isSome := by
  induction fuel generalizing first with
  | zero => simp [probeGetChain] at found
  | succ fuel ih =>
    cases first with
    | none => simp [probeGetChain] at found
    | some id =>
      rw [probeGetChain] at found
      obtain ⟨object,there,found⟩ := bind_eq_some_iff.mp found
      split at found
      next => contradiction
      next plain =>
        split at found
        next spot located =>
          split at found
          next =>
            obtain ⟨rfl,-⟩ := Prod.mk.inj (some.inj found)
            exact ⟨⟨[],rfl,by simp⟩,object,there,by simp [located]⟩
          next => contradiction
        next absent =>
          obtain ⟨⟨nodes,chain,enough⟩,last,kept,named⟩ := ih found
          have front : frontOf heap name id = some (false,object.proto,false) := by
            simp [frontOf,there,absent,plain]
          refine ⟨⟨id :: nodes,⟨rfl,?_,object.proto,front,chain⟩,by rw [List.length_cons]; omega⟩,last,kept,named⟩
          intro same
          obtain rfl : holder = id := some.inj same
          obtain rfl : object = last := some.inj (there.symm.trans kept)
          simp [absent] at named

theorem probeChainAbsent_chain {second : Option ShapeId} (missing : probeChainAbsent heap name id = some second) :
    ∃ nodes, Chain heap name none (some id) nodes ∧ nodes.length ≤ heap.objects.length := by
  obtain ⟨source,found,missing⟩ := bind_eq_some_iff.mp missing
  have inside : id < heap.objects.length := (List.getElem?_eq_some_iff.mp found).1
  split at missing
  next => contradiction
  next plain =>
    rw [not_or] at plain
    have front : frontOf heap name id = some (false,source.proto,false) := by
      have named : (lookup (slotsAt heap source) (.string name)).isSome = false := by simpa using plain.2
      simp [frontOf,found,plain.1,named]
    split at missing
    next link => exact ⟨[id],⟨rfl,by simp,source.proto,front,link⟩,by simp; omega⟩
    next next_ link =>
      obtain ⟨last,there,missing⟩ := bind_eq_some_iff.mp missing
      split at missing
      next => contradiction
      next ends =>
        rw [not_or,not_or] at ends
        have final : last.proto = none := by simpa using ends.2.2
        have frontLast : frontOf heap name next_ = some (false,last.proto,false) := by
          have named : (lookup (slotsAt heap last) (.string name)).isSome = false := by simpa using ends.2.1
          simp [frontOf,there,ends.1,named]
        have different : id ≠ next_ := by
          rintro rfl
          obtain rfl : source = last := some.inj (found.symm.trans there)
          rw [link] at final
          contradiction
        have insideLast : next_ < heap.objects.length := (List.getElem?_eq_some_iff.mp there).1
        refine ⟨[id,next_],⟨rfl,by simp,source.proto,front,link,by simp,last.proto,frontLast,final⟩,?_⟩
        simp only [List.length_cons,List.length_nil]
        omega

theorem GetInv.fillGet (inv : GetInv prototypes state) (found : state.heap.objects[id]? = some receiver)
    (walked : probeGetChain state.heap state.site.name state.heap.objects.length (some id) = some (holder,slot)) :
    GetInv prototypes (fillGet state receiver id holder slot) := by
  have swapped := Inv.remember inv.inv found
  obtain ⟨⟨nodes,chain,enough⟩,last,kept,-⟩ := probeGetChain_chain _ walked
  unfold GetField.fillGet
  by_cases own : holder = id
  · cases receiver.proto with
    | none => exact ⟨swapped,fun _ other => by simp [remember,inherits,own] at other⟩
    | some proto =>
      simp only [if_pos own]
      exact ⟨swapped,fun _ other => by simp [remember,inherits,own] at other⟩
  · cases nodes with
    | nil => exact absurd (some.inj chain).symm own
    | cons head rest =>
      obtain ⟨same,_,next,front,onward⟩ := chain
      obtain rfl : id = head := some.inj same
      obtain ⟨object,there,-,link,without⟩ := frontOf_eq front
      obtain rfl : receiver = object := some.inj (found.symm.trans there)
      have absent : lookup (slotsAt state.heap receiver) (.string state.site.name) = none := by simpa using without
      have slots (shape : ShapeId) := swapRef_slots state.heap.store state.site.cached receiver.shape shape
      cases points : receiver.proto with
      | none =>
        rw [points] at link
        cases link
        cases rest with
        | nil => cases onward
        | cons _ _ => exact absurd onward.1 (by simp)
      | some proto =>
        rw [points] at link
        cases link
        simp only [if_neg own]
        have identified := swapped.identify proto
        refine ⟨identified.inv,?_⟩
        intro _ _ _ shape cached
        obtain rfl : receiver.shape = shape := some.inj cached
        refine ⟨fun _ _ => ?_,rest,?_,enough.trans identified.grows⟩
        · refine (congrArg (lookup · _) ?_).trans absent
          exact (identified.frame _ (List.mem_singleton_self _)).trans (slots _)
        · refine Chain.kept onward fun node _ => ?_
          exact (frontOf_identify proto).trans (frontOf_congr rfl slots)

section Prim
variable {first : Nat} (inv : GetInv prototypes state)
include inv

theorem GetInv.fillPrim (start_ : prototypes.ofKind kind = some first) {source : Object}
    (found : state.heap.objects[holder]? = some source)
    (walked : probeGetChain state.heap state.site.name state.heap.objects.length (some first) = some (holder,slot)) :
    GetInv prototypes (fillPrim state kind first holder slot source) := by
  let nodes := between state.heap (some holder) state.heap.objects.length (some first)
  obtain ⟨objects,-,slots⟩ := guardAll_keeps nodes state.heap
  obtain ⟨⟨rest,chain,enough⟩,-⟩ := probeGetChain_chain _ walked
  have there : (guardAll state.heap nodes).objects[holder]? = some source := by rw [objects]; exact found
  refine ⟨Inv.remember (Inv.guardAll nodes inv.inv) there,?_⟩
  intro _ _ _ shape _
  refine ⟨fun _ other => by contradiction,rest,?_,?_⟩
  · show Chain _ _ (some holder) (prototypes.ofKind kind) rest
    rw [start_]
    exact chain.kept fun node _ => frontOf_congr objects fun id => (swapRef_slots _ _ _ id).trans (slots id)
  · show rest.length + 1 ≤ (guardAll state.heap nodes).objects.length
    rw [objects]
    exact enough

theorem GetInv.fillMissing (start_ : prototypes.ofKind kind = some first) {source : Object} {second : Option ShapeId}
    (found : state.heap.objects[first]? = some source)
    (missing : probeChainAbsent state.heap state.site.name first = some second) :
    GetInv prototypes (fillMissing state kind first source second) := by
  let nodes := between state.heap none 2 (some first)
  obtain ⟨objects,-,slots⟩ := guardAll_keeps nodes state.heap
  obtain ⟨rest,chain,enough⟩ := probeChainAbsent_chain missing
  have there : (guardAll state.heap nodes).objects[first]? = some source := by rw [objects]; exact found
  refine ⟨Inv.remember (Inv.guardAll nodes inv.inv) there,?_⟩
  intro _ _ _ shape _
  refine ⟨fun _ other => by contradiction,rest,?_,?_⟩
  · show Chain _ _ none (prototypes.ofKind kind) rest
    rw [start_]
    exact chain.kept fun node _ => frontOf_congr objects fun id => (swapRef_slots _ _ _ id).trans (slots id)
  · show rest.length ≤ (guardAll state.heap nodes).objects.length
    rw [objects]
    exact enough

theorem GetInv.getPrim (start_ : prototypes.ofKind kind = some first) : GetInv prototypes (getPrim state kind first) := by
  unfold GetField.getPrim
  split
  next holder slot walked =>
    split
    next source found => exact inv.fillPrim start_ found walked
    next => exact inv
  next =>
    split
    next second source missing found => exact inv.fillMissing start_ found missing
    next => exact inv

theorem GetInv.get (receiver : Receiver) : GetInv prototypes (get prototypes state receiver) := by
  unfold GetField.get
  split
  next => exact inv
  next =>
    split
    next id =>
      split
      next => exact inv
      next object found =>
        split
        next => exact inv
        next =>
          split
          next => exact inv
          next walked => exact inv.fillGet found walked
    next value =>
      split
      next kind first kept start_ =>
        refine inv.getPrim ?_
        unfold remembered at kept
        split at kept
        next => contradiction
        next => rw [← of_kind (filter_eq_some_iff.mp kept).1,start_]
      next => exact inv

end Prim

end Fill

end Steps

def inheriting : List Act :=
  [.op (.create 0 none false false),.op (.create 0 (some 0) false false),.op (.create 0 (some 1) false false),
    .op (.mkprop 0 (.string 10) Attributes.all (.primitive 1)),.get (.object 2)]

def undisturbed : List Act :=
  inheriting ++ [.op (.assign 0 (.string 10) (.primitive 2)),.op (.mkprop 1 (.string 11) Attributes.all (.primitive 3)),
    .get (.primitive (.number 7))]

end Ant.Runtime.GetField
