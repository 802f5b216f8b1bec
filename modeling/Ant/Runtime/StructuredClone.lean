import Ant.Library.GraphCopy
import Mathlib.Data.List.TakeWhile

/-! `structuredClone` without a transfer list, on a heap of numbered objects. Memory and the native
stack do not run out. -/
namespace Ant.Runtime.StructuredClone
open Library.GraphCopy List

abbrev Bytes := List Nat

/-- A primitive by the bytes under which a collection files it: its type and its content. -/
inductive Value where
  | primitive (key : Bytes)
  | symbol (key : Bytes)
  | ref (id : Nat)
  deriving DecidableEq,Repr

def undefined : Value := .primitive [7,0,0,0,0,0,0x80,0xF3,0xFF]

def zero : Value := .primitive [10,0,0,0,0,0,0,0,0]

/-- An accessor by what its getter returns; its slot holds undefined. -/
inductive Content where
  | data (value : Value)
  | accessor (returned : Value)
  deriving DecidableEq,Repr

structure Property where
  name : Bytes
  enumerable : Bool
  content : Content
  deriving DecidableEq,Repr

def Property.slot (property : Property) : Value :=
  match property.content with
  | .data value => value
  | .accessor _ => undefined

def Property.read (property : Property) : Value :=
  match property.content with
  | .data value => value
  | .accessor returned => returned

/-- The key is the block by which the hash finds the entry; it is not terminated, and something stands
behind it in memory. -/
structure MapEntry where
  key : Bytes
  behind : Bytes
  keyVal : Value
  value : Value
  deriving DecidableEq,Repr

structure SetEntry where
  key : Bytes
  behind : Bytes
  value : Value
  deriving DecidableEq,Repr

inductive Builtin where
  | object
  | array
  | map
  | set
  | arrayBuffer
  | sharedArrayBuffer
  | typedArray (type : Nat)
  | dataView
  | date
  | blob
  | file
  deriving DecidableEq,Repr

inductive Proto where
  | null
  | builtin (name : Builtin)
  | other (id : Nat)
  deriving DecidableEq,Repr

/-- What the cloner takes an object for. An object has a brand when it is a regular expression, a boxed
primitive or the like, which the cloner does not know. Functions, promises, generators and weak
collections are not cloneable. -/
inductive Body where
  | array (items : List (Option Value)) (named : List Property)
  | object (brand : Option Nat) (properties : List Property)
  | map (entries : List MapEntry)
  | set (entries : List SetEntry)
  | arrayBuffer (bytes : Bytes) (detached shared : Bool)
  | typedArray (type buffer byteOffset length byteLength : Nat)
  | dataView (buffer byteOffset byteLength : Nat)
  | error (message name stack : Option Bytes) (type : Option Nat)
  | date (time : Bytes)
  | blob (data type : Bytes) (file : Option (Bytes × Nat))
  | uncloneable
  deriving DecidableEq,Repr

structure Node where
  proto : Proto
  body : Body
  deriving DecidableEq,Repr

/-- The prototype that the cloner gives to what it makes: none to objects and errors. -/
def protoOf : Body → Proto
  | .array .. => .builtin .array
  | .map _ => .builtin .map
  | .set _ => .builtin .set
  | .arrayBuffer .. => .builtin .arrayBuffer
  | .typedArray type .. => .builtin (.typedArray type)
  | .dataView .. => .builtin .dataView
  | .date _ => .builtin .date
  | .blob _ _ none => .builtin .blob
  | .blob _ _ (some _) => .builtin .file
  | .object .. | .error .. | .uncloneable => .null

def made (body : Body) : Node := ⟨protoOf body,body⟩

inductive Failure where
  | dataClone
  | fault
  | exhausted
  deriving DecidableEq,Repr

abbrev Result := Except Failure (Store Node × Value)

def cString (bytes : Bytes) : Bytes := bytes.takeWhile (· ≠ 0)

def strdup (block behind : Bytes) : Bytes := cString (block ++ behind)

def jsSet : List Property → Bytes → Value → List Property
  | [],name,value => [⟨name,true,.data value⟩]
  | property :: properties,name,value =>
    if property.name = name then {property with content := .data value} :: properties
    else property :: jsSet properties name value

def pushItem (_ : Option Value) (value : Value) : Body → Body
  | .array items named => .array (items ++ [some value]) named
  | body => body

def pushProperty (property : Property) (value : Value) : Body → Body
  | .object brand properties => .object brand (jsSet properties (cString property.name) value)
  | body => body

/-- The key goes over as it is, and its block as a C string. -/
def MapEntry.clone (entry : MapEntry) (value : Value) : MapEntry := ⟨strdup entry.key entry.behind,[0],entry.keyVal,value⟩

def SetEntry.clone (entry : SetEntry) (value : Value) : SetEntry := ⟨strdup entry.key entry.behind,[0],value⟩

def pushMapEntry (entry : MapEntry) (value : Value) : Body → Body
  | .map entries => .map (entries ++ [entry.clone value])
  | body => body

def pushSetEntry (entry : SetEntry) (value : Value) : Body → Body
  | .set entries => .set (entries ++ [entry.clone value])
  | body => body

def inBody {α : Type} (push : α → Value → Body → Body) (part : α) (value : Value) (node : Node) : Node :=
  {node with body := push part value node.body}

/-- The clone is there, and known, before its parts are. -/
def cloneInto {α : Type} (clone : Store Node → Value → Result) (store : Store Node) (id : Nat) (start : Body) (value : α → Value)
    (push : α → Value → Body → Body) (parts : List α) : Result :=
  (fill clone value (inBody push) store.heap.length parts (remember (allocate store (made start)) id store.heap.length)).map
    fun after => (after,.ref store.heap.length)

def cloneLeaf (store : Store Node) (id : Nat) (copy : Body) : Result :=
  .ok (remember (allocate store (made copy)) id store.heap.length,.ref store.heap.length)

def cloneView (store : Store Node) (id : Nat) (bytes : Bytes) (view : Nat → Body) : Result :=
  .ok (remember (allocate (allocate store (made (.arrayBuffer bytes false false))) (made (view store.heap.length))) id
    (store.heap.length + 1),.ref (store.heap.length + 1))

def scCloneTypedArray (store : Store Node) (id type buffer byteOffset length byteLength : Nat) : Result :=
  match store.heap[buffer]? with
  | some ⟨_,.arrayBuffer bytes detached _⟩ =>
    -- the bytes of a detached buffer are gone, and they are copied all the same
    if detached && byteLength ≠ 0 then .error .fault
    else cloneView store id ((bytes.drop byteOffset).take byteLength) fun new => .typedArray type new 0 length byteLength
  | _ => .error .dataClone

def scCloneDataView (store : Store Node) (id buffer byteOffset byteLength : Nat) : Result :=
  match store.heap[buffer]? with
  | some ⟨_,.arrayBuffer bytes _ _⟩ => cloneView store id bytes fun new => .dataView new byteOffset byteLength
  | _ => .error .dataClone

def byteLengthName : Bytes := [0x62,0x79,0x74,0x65,0x4C,0x65,0x6E,0x67,0x74,0x68]

def scCloneBody (clone : Store Node → Value → Result) (store : Store Node) (id : Nat) : Body → Result
  | .typedArray type buffer byteOffset length byteLength => scCloneTypedArray store id type buffer byteOffset length byteLength
  -- a shared buffer comes out as one that is not shared
  | .arrayBuffer bytes false _ => cloneLeaf store id (.arrayBuffer bytes false false)
  -- a detached buffer comes down to an object with its one property
  | .arrayBuffer _ true _ => cloneLeaf store id (.object none [⟨byteLengthName,true,.data zero⟩])
  | .dataView buffer byteOffset byteLength => scCloneDataView store id buffer byteOffset byteLength
  | .array items _ => cloneInto clone store id (.array [] []) (fun item : Option Value => item.getD undefined) pushItem items
  | .map entries => cloneInto clone store id (.map []) MapEntry.value pushMapEntry entries
  | .set entries => cloneInto clone store id (.set []) SetEntry.value pushSetEntry entries
  | .error message name stack type => cloneLeaf store id (.error (message.map cString) (name.map cString) (stack.map cString) type)
  | .date time => cloneLeaf store id (.date time)
  | .blob data type file => cloneLeaf store id (.blob data type file)
  | .object _ properties => cloneInto clone store id (.object none []) Property.slot pushProperty properties
  | .uncloneable => .error .dataClone

def scCloneWith (clone : Store Node → Value → Result) (store : Store Node) : Value → Result
  | .primitive key => .ok (store,.primitive key)
  | .symbol _ => .error .dataClone
  | .ref id => match find store id with
    | some copy => .ok (store,.ref copy)
    | none => match store.heap[id]? with
      | some node => scCloneBody clone store id node.body
      | none => .error .dataClone

/-- The first argument bounds the depth of the recursion. -/
def scCloneRec : Nat → Store Node → Value → Result
  | 0 => scCloneWith fun _ _ => .error .exhausted
  | fuel+1 => scCloneWith (scCloneRec fuel)

/-- An object is entered once, so that the number of the objects is depth enough. -/
def jsStructuredClone (heap : List Node) (root : Value) : Result := scCloneRec heap.length ⟨heap,[]⟩ root

/-! What a structured clone is. -/

/-- The values that the standard hands on: of properties, the enumerable ones as they are read. -/
def Body.children : Body → List Value
  | .array items named => items.filterMap id ++ (named.filter Property.enumerable).map Property.read
  | .object _ properties => (properties.filter Property.enumerable).map Property.read
  | .map entries => entries.flatMap fun entry => [entry.keyVal,entry.value]
  | .set entries => entries.map SetEntry.value
  | _ => []

def Body.owns : Body → Option Nat
  | .typedArray _ buffer _ _ _ => some buffer
  | .dataView buffer _ _ => some buffer
  | _ => none

def Node.children (node : Node) : List Value := node.body.children

def Node.owns (node : Node) : Option Nat := node.body.owns

inductive Reached (heap : List Node) (root : Value) : Nat → Prop where
  | root (id : Nat) (same : root = .ref id) : Reached heap root id
  | child (parent id : Nat) (node : Node) (above : Reached heap root parent) (read : heap[parent]? = some node)
      (member : .ref id ∈ node.children) : Reached heap root id

def InGraph (heap : List Node) (root : Value) (id : Nat) : Prop :=
  Reached heap root id ∨ ∃ view node, Reached heap root view ∧ heap[view]? = some node ∧ node.owns = some id

def Related (R : Nat → Nat → Prop) : Value → Value → Prop
  | .primitive key,.primitive other => key = other
  | .symbol key,.symbol other => key = other
  | .ref id,.ref copy => R id copy
  | _,_ => False

def Members (R : Nat → Nat → Prop) (properties copies : List Property) : Prop :=
  List.Forall₂ (fun property copy => copy.name = property.name ∧ copy.enumerable = true ∧
    ∃ value, copy.content = .data value ∧ Related R property.read value) (properties.filter Property.enumerable) copies

section Filing
variable (objectKey : Nat → Bytes)

def filed : Value → Bytes
  | .primitive key => key
  | .symbol key => key
  | .ref id => objectKey id

/-- An entry that is found under its key has a copy that is found under the copy of the key. -/
def MapEntries (R : Nat → Nat → Prop) (entries copies : List MapEntry) : Prop :=
  List.Forall₂ (fun entry copy => Related R entry.keyVal copy.keyVal ∧ Related R entry.value copy.value ∧
    (entry.key = filed objectKey entry.keyVal → copy.key = filed objectKey copy.keyVal)) entries copies

def SetEntries (R : Nat → Nat → Prop) (entries copies : List SetEntry) : Prop :=
  List.Forall₂ (fun entry copy => Related R entry.value copy.value ∧
    (entry.key = filed objectKey entry.value → copy.key = filed objectKey copy.value)) entries copies

inductive SameBody (R : Nat → Nat → Prop) : Body → Body → Prop where
  | array {items copies : List (Option Value)} {named namedCopies : List Property}
      (each : List.Forall₂ (Option.Rel (Related R)) items copies) (members : Members R named namedCopies) :
      SameBody R (.array items named) (.array copies namedCopies)
  | object {brand : Option Nat} {properties copies : List Property} (members : Members R properties copies) :
      SameBody R (.object brand properties) (.object brand copies)
  | map {entries copies : List MapEntry} (each : MapEntries objectKey R entries copies) : SameBody R (.map entries) (.map copies)
  | set {entries copies : List SetEntry} (each : SetEntries objectKey R entries copies) : SameBody R (.set entries) (.set copies)
  | arrayBuffer (bytes : Bytes) (detached shared : Bool) :
      SameBody R (.arrayBuffer bytes detached shared) (.arrayBuffer bytes detached shared)
  | typedArray (type byteOffset length byteLength : Nat) {buffer copy : Nat} (related : R buffer copy) :
      SameBody R (.typedArray type buffer byteOffset length byteLength) (.typedArray type copy byteOffset length byteLength)
  | dataView (byteOffset byteLength : Nat) {buffer copy : Nat} (related : R buffer copy) :
      SameBody R (.dataView buffer byteOffset byteLength) (.dataView copy byteOffset byteLength)
  | error (message name stack : Option Bytes) (type : Option Nat) :
      SameBody R (.error message name stack type) (.error message name stack type)
  | date (time : Bytes) : SameBody R (.date time) (.date time)
  | blob (data type : Bytes) (file : Option (Bytes × Nat)) : SameBody R (.blob data type file) (.blob data type file)

structure Same (R : Nat → Nat → Prop) (node clone : Node) : Prop where
  proto : clone.proto = node.proto
  body : SameBody objectKey R node.body clone.body

/-- A correspondence of the objects of two graphs that is one to one, keeps the roots and relates every
object to a structured clone. -/
structure Isomorphism (heap : List Node) (root : Value) (later : List Node) (copy : Value) (R : Nat → Nat → Prop) : Prop where
  roots : Related R root copy
  total : ∀ id, InGraph heap root id → ∃ copied, R id copied
  onto : ∀ copied, InGraph later copy copied → ∃ id, R id copied
  functional : ∀ id one two, R id one → R id two → one = two
  injective : ∀ one two copied, R one copied → R two copied → one = two
  same : ∀ id copied, R id copied → ∃ node clone, heap[id]? = some node ∧ later[copied]? = some clone ∧ Same objectKey R node clone

def Isomorphic (heap : List Node) (root : Value) (later : List Node) (copy : Value) : Prop :=
  ∃ R, Isomorphism objectKey heap root later copy R

end Filing

/-- Whatever is changed at the objects of one graph, or made anew, the other graph stays as it was. -/
def Independent (heap : List Node) (changing other : Value) : Prop :=
  ∀ later : List Node, (∀ id, later[id]? ≠ heap[id]? → InGraph heap changing id ∨ heap.length ≤ id) →
    ∀ id, InGraph heap other id → InGraph later other id ∧ later[id]? = heap[id]?

/-- Two graphs without an object in common, none of which shows in the other. -/
structure Separate (heap : List Node) (root copy : Value) : Prop where
  disjoint : ∀ id, InGraph heap root id → ¬ InGraph heap copy id
  forward : Independent heap root copy
  backward : Independent heap copy root

/-! Where the clone is one. -/

/-- A rooted graph of a heap: no reference dangles, a view has a buffer, keys are distinct. -/
structure Graph where
  heap : List Node
  root : Value
  closed : ∀ id, Reached heap root id → ∃ node, heap[id]? = some node
  buffers : ∀ id node buffer, Reached heap root id → heap[id]? = some node → node.owns = some buffer →
    ∃ proto bytes detached shared, heap[buffer]? = some ⟨proto,.arrayBuffer bytes detached shared⟩
  distinct : ∀ id proto brand properties, Reached heap root id → heap[id]? = some ⟨proto,.object brand properties⟩ →
    (properties.map Property.name).Nodup

def Value.cloneable : Value → Bool
  | .symbol _ => false
  | _ => true

def Body.copied : Body → List Value
  | .array items _ => items.map fun item => item.getD undefined
  | .object _ properties => properties.map Property.slot
  | .map entries => entries.map MapEntry.value
  | .set entries => entries.map SetEntry.value
  | _ => []

structure Accepted (graph : Graph) : Prop where
  root : graph.root.cloneable = true
  nodes : ∀ id node, Reached graph.heap graph.root id → graph.heap[id]? = some node →
    node.body ≠ .uncloneable ∧ ∀ value ∈ node.body.copied, value.cloneable = true

/-- An object that the cloner copies as the standard does: no holes and no named properties in an array,
only plain enumerable properties under terminated names in an object without a brand, no objects as
keys of a Map or members of a Set, whose blocks are the C strings that they begin, no detached buffer, a
typed array over the whole of its buffer, no shared buffer, and no zero bytes in the texts of an error. -/
def Body.Plain (heap : List Node) : Body → Prop
  | .array items named => (∀ item ∈ items, item.isSome = true) ∧ named.filter Property.enumerable = []
  | .object brand properties => brand = none ∧
      ∀ property ∈ properties, property.enumerable = true ∧ property.slot = property.read ∧ 0 ∉ property.name
  | .map entries => ∀ entry ∈ entries, (∀ id, entry.keyVal ≠ .ref id) ∧ strdup entry.key entry.behind = entry.key
  | .set entries => ∀ entry ∈ entries, (∀ id, entry.value ≠ .ref id) ∧ strdup entry.key entry.behind = entry.key
  | .arrayBuffer _ detached shared => detached = false ∧ shared = false
  | .typedArray _ buffer byteOffset _ byteLength =>
      ∃ bytes, heap[buffer]? = some (made (.arrayBuffer bytes false false)) ∧ byteOffset = 0 ∧ byteLength = bytes.length
  | .dataView buffer _ _ => ∃ bytes, heap[buffer]? = some (made (.arrayBuffer bytes false false))
  | .error message name stack _ => ∀ text : Bytes, (message = some text ∨ name = some text ∨ stack = some text) → 0 ∉ text
  | _ => True

/-- An object also has the prototype that the cloner gives. -/
def Node.Plain (heap : List Node) (node : Node) : Prop := node.proto = protoOf node.body ∧ node.body.Plain heap

/-- Every object is plain, and the buffer of a view is nobody else's and not reached by itself. -/
structure Faithful (graph : Graph) : Prop where
  plain : ∀ id node, Reached graph.heap graph.root id → graph.heap[id]? = some node → node.Plain graph.heap
  alone : ∀ view node buffer, Reached graph.heap graph.root view → graph.heap[view]? = some node → node.owns = some buffer →
    ¬ Reached graph.heap graph.root buffer ∧ ∀ other another, Reached graph.heap graph.root other →
      graph.heap[other]? = some another → another.owns = some buffer → other = view

variable {properties copies : List Property} {node copy : Node} {body bodyCopy : Body}

section Relations
variable {objectKey : Nat → Bytes} {R S : Nat → Nat → Prop}

theorem related_mono (R S : Nat → Nat → Prop) (value copy : Value) (more : ∀ id copy, R id copy → S id copy)
    (related : Related R value copy) : Related S value copy := by
  cases value <;> cases copy <;> first | exact related | exact more _ _ related

theorem members_mono (more : ∀ id copy, R id copy → S id copy) (members : Members R properties copies) :
    Members S properties copies := by
  refine List.Forall₂.imp ?_ members
  rintro property copy ⟨name,visible,value,content,related⟩
  exact ⟨name,visible,value,content,related_mono R S _ _ more related⟩

theorem sameBody_mono (more : ∀ id copy, R id copy → S id copy) (same : SameBody objectKey R body bodyCopy) :
    SameBody objectKey S body bodyCopy := by
  cases same with
  | array each members =>
    refine .array (each.imp ?_) (members_mono more members)
    intro item copied related
    cases related with
    | some related => exact .some (related_mono R S _ _ more related)
    | none => exact .none
  | object members => exact .object (members_mono more members)
  | map each =>
    refine .map (List.Forall₂.imp ?_ each)
    rintro entry copied ⟨key,value,found⟩
    exact ⟨related_mono R S _ _ more key,related_mono R S _ _ more value,found⟩
  | set each =>
    refine .set (List.Forall₂.imp ?_ each)
    rintro entry copied ⟨value,found⟩
    exact ⟨related_mono R S _ _ more value,found⟩
  | arrayBuffer bytes detached shared => exact .arrayBuffer bytes detached shared
  | typedArray type byteOffset length byteLength related => exact .typedArray type byteOffset length byteLength (more _ _ related)
  | dataView byteOffset byteLength related => exact .dataView byteOffset byteLength (more _ _ related)
  | error message name stack type => exact .error message name stack type
  | date time => exact .date time
  | blob data type file => exact .blob data type file

theorem same_mono (R S : Nat → Nat → Prop) (node copy : Node) (more : ∀ id copy, R id copy → S id copy)
    (same : Same objectKey R node copy) : Same objectKey S node copy := ⟨same.proto,sameBody_mono more same.body⟩

theorem members_read (members : Members R properties copies) :
    List.Forall₂ (Related R) ((properties.filter Property.enumerable).map Property.read)
      ((copies.filter Property.enumerable).map Property.read) := by
  unfold Members at members
  generalize properties.filter Property.enumerable = visible at members
  induction members with
  | nil => exact .nil
  | @cons property copy visible copies related members ih =>
    obtain ⟨_,enumerable,value,content,relation⟩ := related
    have read : copy.read = value := by simp [Property.read,content]
    rw [map_cons,filter_cons_of_pos enumerable,map_cons,read]
    exact .cons relation ih

theorem items_related {items copies : List (Option Value)} (each : List.Forall₂ (Option.Rel (Related R)) items copies) :
    List.Forall₂ (Related R) (items.filterMap id) (copies.filterMap id) := by
  induction each with
  | nil => exact .nil
  | cons related _ ih =>
    cases related with
    | some related => exact .cons related ih
    | none => exact ih

theorem SameBody.children (same : SameBody objectKey R body bodyCopy) :
    List.Forall₂ (Related R) body.children bodyCopy.children := by
  cases same with
  | array each members => exact rel_append (items_related each) (members_read members)
  | object members => exact members_read members
  | map each =>
    induction each with
    | nil => exact .nil
    | cons related _ ih => exact .cons related.1 (.cons related.2.1 ih)
  | set each =>
    induction each with
    | nil => exact .nil
    | cons related _ ih => exact .cons related.1 ih
  | _ => exact .nil

theorem Same.children (same : Same objectKey R node copy) : List.Forall₂ (Related R) node.children copy.children :=
  same.body.children

theorem SameBody.owns (same : SameBody objectKey R body bodyCopy) : Option.Rel R body.owns bodyCopy.owns := by
  cases same with
  | typedArray _ _ _ _ related => exact .some related
  | dataView _ _ related => exact .some related
  | _ => exact .none

theorem Same.owns (same : Same objectKey R node copy) : Option.Rel R node.owns copy.owns := same.body.owns

theorem forall₂_left {α β : Type} {P : α → β → Prop} {xs : List α} {ys : List β} (each : List.Forall₂ P xs ys) {x : α}
    (member : x ∈ xs) : ∃ y ∈ ys, P x y := by
  induction each with
  | nil => exact absurd member (by simp)
  | @cons first other xs ys related _ ih =>
    rcases mem_cons.mp member with rfl | later
    · exact ⟨other,mem_cons_self ..,related⟩
    · obtain ⟨y,listed,found⟩ := ih later
      exact ⟨y,mem_cons_of_mem _ listed,found⟩

/-! The copies that the loops leave. -/

theorem inBody_fold {α : Type} (push : α → Value → Body → Body) (entries : List (α × Value)) (proto : Proto) (body : Body) :
    entries.foldl (fun node entry => inBody push entry.1 entry.2 node) ⟨proto,body⟩ =
      ⟨proto,entries.foldl (fun body entry => push entry.1 entry.2 body) body⟩ := by
  induction entries generalizing body with
  | nil => rfl
  | cons entry entries ih => exact ih _

theorem pushItem_fold {parts : List (Option Value)} (values : List Value) (long : parts.length = values.length)
    (items : List (Option Value)) :
    (parts.zip values).foldl (fun body entry => pushItem entry.1 entry.2 body) (.array items []) = .array (items ++ values.map some) [] := by
  induction parts generalizing values items with
  | nil =>
    cases values with
    | nil => simp
    | cons value values => exact absurd long (by simp)
  | cons part parts ih =>
    cases values with
    | nil => exact absurd long (by simp)
    | cons value values =>
      rw [zip_cons_cons,foldl_cons,pushItem,ih values (by simpa using long)]
      simp

theorem pushMapEntry_fold (parts : List MapEntry) (values : List Value) (entries : List MapEntry) :
    (parts.zip values).foldl (fun body entry => pushMapEntry entry.1 entry.2 body) (.map entries) =
      .map (entries ++ (parts.zip values).map fun entry => entry.1.clone entry.2) := by
  induction parts.zip values generalizing entries with
  | nil => simp
  | cons entry rest ih =>
    rw [foldl_cons,pushMapEntry,ih]
    simp

theorem pushSetEntry_fold (parts : List SetEntry) (values : List Value) (entries : List SetEntry) :
    (parts.zip values).foldl (fun body entry => pushSetEntry entry.1 entry.2 body) (.set entries) =
      .set (entries ++ (parts.zip values).map fun entry => entry.1.clone entry.2) := by
  induction parts.zip values generalizing entries with
  | nil => simp
  | cons entry rest ih =>
    rw [foldl_cons,pushSetEntry,ih]
    simp

def Property.plain (property : Property) (value : Value) : Property := ⟨property.name,true,.data value⟩

theorem jsSet_new {name : Bytes} (value : Value) (new : name ∉ properties.map Property.name) :
    jsSet properties name value = properties ++ [⟨name,true,.data value⟩] := by
  induction properties with
  | nil => rfl
  | cons property properties ih =>
    rw [map_cons,mem_cons,not_or] at new
    rw [jsSet,if_neg (Ne.symm new.1),ih new.2,cons_append]

theorem cString_terminated {bytes : Bytes} (terminated : 0 ∉ bytes) : cString bytes = bytes := by
  unfold cString
  rw [takeWhile_eq_self_iff]
  intro byte member
  simp only [decide_eq_true_eq]
  rintro rfl
  exact terminated member

theorem pushProperty_fold {parts : List Property} (values : List Value) (brand : Option Nat) (properties : List Property)
    (terminated : ∀ property ∈ parts, 0 ∉ property.name) (long : parts.length = values.length)
    (distinct : ((properties ++ parts).map Property.name).Nodup) :
    (parts.zip values).foldl (fun body entry => pushProperty entry.1 entry.2 body) (.object brand properties) =
      .object brand (properties ++ (parts.zip values).map fun entry => entry.1.plain entry.2) := by
  induction parts generalizing values properties with
  | nil => simp
  | cons part parts ih =>
    cases values with
    | nil => exact absurd long (by simp)
    | cons value values =>
      have name : cString part.name = part.name := cString_terminated (terminated part (mem_cons_self ..))
      have new : part.name ∉ properties.map Property.name := by
        intro member
        rw [map_append] at distinct
        exact disjoint_of_nodup_append distinct member (mem_cons_self ..)
      have rest : ((properties ++ [part.plain value] ++ parts).map Property.name).Nodup := by
        simpa [Property.plain] using distinct
      rw [zip_cons_cons,foldl_cons,pushProperty,name,jsSet_new _ new,
        ← Property.plain,ih values _ (fun property member => terminated property (mem_cons_of_mem _ member)) (by simpa using long) rest]
      simp

end Relations

end Ant.Runtime.StructuredClone
