import Ant.Json.Keys

/-! `JSON.stringify` without `toJSON` and without a replacer function: the writers append to one buffer
and take a member back that turns out not to be written. The language's serialization joins texts. -/
namespace Ant.Json.Stringify
open Library.KeyedList Keys

/-- A value that is written: null, a boolean, a number or a string by its text, a bigint, or an object. -/
inductive Value where
  | atom (text : Bytes)
  | bigint
  | ref (id : Nat)
  deriving DecidableEq,Repr

/-- A promise or a generator is an object of the language, but has a type of its own in the runtime. -/
inductive Node where
  | array (items : List (Option Value))
  | object (object : Object Value)
  | promise (object : Object Value)

abbrev Heap := Nat → Node

inductive Failure where
  | bigint
  | depth
  deriving DecidableEq,Repr

structure Context where
  indent : Bytes
  quote : Bytes → Bytes
  replacer : Replacer

def jsonWriteIndent (context : Context) (depth : Nat) (out : Bytes) : Bytes :=
  if context.indent = [] then out else out ++ [0x0A] ++ (List.replicate depth context.indent).flatten

def jsonWriteKey (context : Context) (depth : Nat) (wroteAny : Bool) (key out : Bytes) : Bytes :=
  let separated := if wroteAny then out ++ [0x2C] else out
  let named := jsonWriteIndent context (depth + 1) separated ++ context.quote key ++ [0x3A]
  if context.indent = [] then named else named ++ [0x20]

def jsonWriteMembers (context : Context) (write : Bytes → Value → Except Failure Bytes) (depth : Nat)
    (read : Bytes → Option Value) : List Bytes → Bool → Bytes → Except Failure (Bool × Bytes)
  | [],wroteAny,out => .ok (wroteAny,out)
  | key :: keys,wroteAny,out =>
    match read key with
    -- the key was written already, and the buffer goes back to its mark
    | none => jsonWriteMembers context write depth read keys wroteAny out
    | some value => match write (jsonWriteKey context depth wroteAny key out) value with
      | .error failure => .error failure
      | .ok out => jsonWriteMembers context write depth read keys true out

def jsonCloseObject (context : Context) (depth : Nat) : Bool × Bytes → Bytes
  | (wroteAny,out) => (if wroteAny then jsonWriteIndent context depth out else out) ++ [0x7D]

def jsonWriteObjectFast (context : Context) (write : Bytes → Value → Except Failure Bytes) (depth : Nat)
    (object : Object Value) (keys : List Bytes) (out : Bytes) : Except Failure Bytes :=
  (jsonWriteMembers context write depth (readFast object) (fastKeys context.replacer keys) false (out ++ [0x7B])).map
    (jsonCloseObject context depth)

def jsonWriteObjectGeneric (context : Context) (write : Bytes → Value → Except Failure Bytes) (depth : Nat)
    (object : Object Value) (out : Bytes) : Except Failure Bytes :=
  (jsonWriteMembers context write depth (jsGet object) (genericKeys context.replacer object) false (out ++ [0x7B])).map
    (jsonCloseObject context depth)

/-- The fast writer takes the objects whose keys `collect` gives. -/
def jsonWriteObject (collect : Object Value → Option (List Bytes)) (context : Context)
    (write : Bytes → Value → Except Failure Bytes) (depth : Nat) (object : Object Value) (out : Bytes) : Except Failure Bytes :=
  match collect object with
  | some keys => jsonWriteObjectFast context write depth object keys out
  | none => jsonWriteObjectGeneric context write depth object out

def nullText : Bytes := [0x6E,0x75,0x6C,0x6C]

def jsonWriteItems (context : Context) (write : Bytes → Value → Except Failure Bytes) (depth : Nat) :
    List (Option Value) → Bool → Bytes → Except Failure Bytes
  | [],_,out => .ok out
  | item :: items,later,out =>
    let started := jsonWriteIndent context (depth + 1) (if later then out ++ [0x2C] else out)
    match item with
    | none => jsonWriteItems context write depth items true (started ++ nullText)
    | some value => match write started value with
      | .error failure => .error failure
      | .ok out => jsonWriteItems context write depth items true out

def jsonWriteArray (context : Context) (write : Bytes → Value → Except Failure Bytes) (depth : Nat)
    (items : List (Option Value)) (out : Bytes) : Except Failure Bytes :=
  (jsonWriteItems context write depth items false (out ++ [0x5B])).map fun out =>
    (if items = [] then out else jsonWriteIndent context depth out) ++ [0x5D]

def jsonWriteImpl (collect : Object Value → Option (List Bytes)) (context : Context) (heap : Heap) :
    Nat → Nat → Bytes → Value → Except Failure Bytes
  | _,_,out,.atom text => .ok (out ++ text)
  | _,_,_,.bigint => .error .bigint
  | 0,_,out,.ref id => match heap id with
    | .promise _ => .ok (out ++ nullText)
    | .array _ | .object _ => .error .depth
  | levels+1,depth,out,.ref id => match heap id with
    | .promise _ => .ok (out ++ nullText)
    | .array items => jsonWriteArray context (jsonWriteImpl collect context heap levels (depth + 1)) depth items out
    | .object object => jsonWriteObject collect context (jsonWriteImpl collect context heap levels (depth + 1)) depth object out

def maxDepth : Nat := 2000

def jsJsonStringify (collect : Object Value → Option (List Bytes)) (context : Context) (heap : Heap) :
    Option Value → Except Failure (Option Bytes)
  | none => .ok none
  | some value => (jsonWriteImpl collect context heap maxDepth 0 [] value).map some

/-! What the language prescribes. -/

def indentation (context : Context) (depth : Nat) : Bytes := (List.replicate depth context.indent).flatten

def wrap (context : Context) (depth opening closing : Nat) (parts : List Bytes) : Bytes :=
  if parts = [] then [opening,closing]
  else if context.indent = [] then [opening] ++ List.intercalate [0x2C] parts ++ [closing]
  else [opening,0x0A] ++ indentation context (depth + 1) ++
    List.intercalate ([0x2C,0x0A] ++ indentation context (depth + 1)) parts ++ [0x0A] ++ indentation context depth ++ [closing]

def memberText (context : Context) (key text : Bytes) : Bytes :=
  context.quote key ++ [0x3A] ++ (if context.indent = [] then [] else [0x20]) ++ text

def serializeMember (context : Context) (serialize : Value → Except Failure Bytes) (member : Bytes × Value) : Except Failure Bytes :=
  (serialize member.2).map (memberText context member.1)

def serializeItem (serialize : Value → Except Failure Bytes) : Option Value → Except Failure Bytes
  | none => .ok nullText
  | some value => serialize value

def serializeAll {α : Type} (serialize : α → Except Failure Bytes) : List α → Except Failure (List Bytes)
  | [] => .ok []
  | item :: items => match serialize item with
    | .error failure => .error failure
    | .ok text => (serializeAll serialize items).map (text :: ·)

def serializeProperty (context : Context) (heap : Heap) : Nat → Nat → Value → Except Failure Bytes
  | _,_,.atom text => .ok text
  | _,_,.bigint => .error .bigint
  | 0,_,.ref _ => .error .depth
  | levels+1,depth,.ref id => match heap id with
    | .array items => (serializeAll (serializeItem (serializeProperty context heap levels (depth + 1))) items).map
        (wrap context depth 0x5B 0x5D)
    | .object object | .promise object =>
      (serializeAll (serializeMember context (serializeProperty context heap levels (depth + 1)))
        (specMembers context.replacer object)).map (wrap context depth 0x7B 0x7D)

def stringify (context : Context) (heap : Heap) : Option Value → Except Failure (Option Bytes)
  | none => .ok none
  | some value => (serializeProperty context heap maxDepth 0 value).map some

/-! The buffer. -/

def line (context : Context) (depth : Nat) : Bytes :=
  if context.indent = [] then [] else [0x0A] ++ indentation context depth

theorem jsonWriteIndent_eq (context : Context) (depth : Nat) (out : Bytes) :
    jsonWriteIndent context depth out = out ++ line context depth := by
  unfold jsonWriteIndent line indentation
  split <;> simp

def spread (context : Context) (depth : Nat) : Bool → List Bytes → Bytes
  | _,[] => []
  | later,part :: parts => (if later then [0x2C] else []) ++ line context (depth + 1) ++ part ++ spread context depth true parts

theorem spread_later (context : Context) (depth : Nat) (part : Bytes) (parts : List Bytes) :
    part ++ spread context depth true parts = List.intercalate ([0x2C] ++ line context (depth + 1)) (part :: parts) := by
  induction parts generalizing part with
  | nil => simp [spread]
  | cons next parts ih =>
    rw [spread,List.append_assoc _ next,ih next]
    simp

theorem wrap_eq (context : Context) (depth opening closing : Nat) (parts : List Bytes) :
    wrap context depth opening closing parts =
      [opening] ++ spread context depth false parts ++ (if parts = [] then [] else line context depth) ++ [closing] := by
  cases parts with
  | nil => rfl
  | cons part parts =>
    have joined := spread_later context depth part parts
    unfold wrap
    rw [spread,List.append_assoc _ part,joined]
    by_cases flat : context.indent = []
    · simp [line,flat]
    · simp [line,flat]

theorem jsonWriteKey_eq (context : Context) (depth : Nat) (wroteAny : Bool) (key out text : Bytes) :
    jsonWriteKey context depth wroteAny key out ++ text =
      out ++ ((if wroteAny then [0x2C] else []) ++ line context (depth + 1) ++ memberText context key text) := by
  simp only [jsonWriteKey,memberText,jsonWriteIndent_eq]
  cases wroteAny with
  | false => by_cases flat : context.indent = [] <;> simp [flat]
  | true => by_cases flat : context.indent = [] <;> simp [flat]

def Appends (write : Bytes → Value → Except Failure Bytes) (serialize : Value → Except Failure Bytes) : Prop :=
  ∀ out value, write out value = (serialize value).map (out ++ ·)

section Loops
variable (context : Context) {write : Bytes → Value → Except Failure Bytes} {serialize : Value → Except Failure Bytes}

theorem jsonWriteMembers_eq (appends : Appends write serialize) (depth : Nat) (read : Bytes → Option Value) (keys : List Bytes)
    (wroteAny : Bool) (out : Bytes) :
    jsonWriteMembers context write depth read keys wroteAny out =
      (serializeAll (serializeMember context serialize) (shown read keys)).map fun parts =>
        (wroteAny || !parts.isEmpty,out ++ spread context depth wroteAny parts) := by
  induction keys generalizing wroteAny out with
  | nil => simp [jsonWriteMembers,shown,serializeAll,spread,Except.map]
  | cons key keys ih =>
    rw [jsonWriteMembers]
    cases found : read key with
    | none =>
      have hidden : shown read (key :: keys) = shown read keys := by simp [shown,found]
      rw [hidden]
      exact ih wroteAny out
    | some value =>
      have visible : shown read (key :: keys) = (key,value) :: shown read keys := by simp [shown,found]
      rw [visible,serializeAll,serializeMember]
      simp only [appends _ value]
      cases serialize value with
      | error failure => rfl
      | ok text =>
        simp only [Except.map,jsonWriteKey_eq]
        rw [ih]
        cases serializeAll (serializeMember context serialize) (shown read keys) with
        | error failure => rfl
        | ok parts => simp [Except.map,spread]

theorem jsonWriteItems_eq (appends : Appends write serialize) (depth : Nat) (items : List (Option Value)) (later : Bool)
    (out : Bytes) : jsonWriteItems context write depth items later out =
      (serializeAll (serializeItem serialize) items).map fun parts => out ++ spread context depth later parts := by
  induction items generalizing later out with
  | nil => simp [jsonWriteItems,serializeAll,spread,Except.map]
  | cons item items ih =>
    have comma : (if later then out ++ [0x2C] else out) = out ++ if later then [0x2C] else [] := by
      cases later <;> simp
    rw [serializeAll]
    cases item with
    | none =>
      simp only [jsonWriteItems,serializeItem,comma,ih]
      cases serializeAll (serializeItem serialize) items with
      | error failure => rfl
      | ok parts => simp [Except.map,spread,jsonWriteIndent_eq]
    | some value =>
      simp only [jsonWriteItems,serializeItem,comma,appends _ value]
      cases serialize value with
      | error failure => rfl
      | ok text =>
        simp only [Except.map]
        rw [ih]
        cases serializeAll (serializeItem serialize) items with
        | error failure => rfl
        | ok parts => simp [Except.map,spread,jsonWriteIndent_eq]

end Loops

variable {write : Bytes → Value → Except Failure Bytes} {serialize : Value → Except Failure Bytes} {heap : Heap}

theorem jsonWriteMembers_object (context : Context) (appends : Appends write serialize) (depth : Nat)
    (read : Bytes → Option Value) (keys : List Bytes) (out : Bytes) :
    (jsonWriteMembers context write depth read keys false (out ++ [0x7B])).map (jsonCloseObject context depth) =
      (serializeAll (serializeMember context serialize) (shown read keys)).map fun parts =>
        out ++ wrap context depth 0x7B 0x7D parts := by
  rw [jsonWriteMembers_eq context appends]
  cases serializeAll (serializeMember context serialize) (shown read keys) with
  | error failure => rfl
  | ok parts =>
    simp only [Except.map,wrap_eq,jsonCloseObject,jsonWriteIndent_eq]
    cases parts with
    | nil => simp
    | cons part parts => simp

theorem jsonWriteArray_eq (context : Context) (appends : Appends write serialize) (depth : Nat)
    (items : List (Option Value)) (out : Bytes) : jsonWriteArray context write depth items out =
      (serializeAll (serializeItem serialize) items).map fun parts => out ++ wrap context depth 0x5B 0x5D parts := by
  unfold jsonWriteArray
  rw [jsonWriteItems_eq context appends]
  cases items with
  | nil => simp [serializeAll,Except.map,wrap_eq]
  | cons item items =>
    rw [serializeAll]
    cases serializeItem serialize item with
    | error failure => rfl
    | ok text =>
      cases serializeAll (serializeItem serialize) items with
      | error failure => rfl
      | ok parts => simp [Except.map,wrap_eq,jsonWriteIndent_eq]

/-- What is written at a node: its members, or null. -/
inductive Written where
  | items
  | members (list : List (Bytes × Value))
  | null

def jsonWritten (replacer : Replacer) : Node → Written
  | .array _ => .items
  | .object object => .members (jsonMembers replacer object)
  | .promise _ => .null

def prescribed (replacer : Replacer) : Node → Written
  | .array _ => .items
  | .object object | .promise object => .members (specMembers replacer object)

/-- The node is written as prescribed, an object by both writers alike where the fast one takes it. -/
def Node.WrittenAsPrescribed (replacer : Replacer) (node : Node) : Prop :=
  jsonWritten replacer node = prescribed replacer node ∧ ∀ object keys, node = .object object → jsonCollectOwnKeys object = some keys →
    shown (readFast object) (fastKeys replacer keys) = shown (jsGet object) (genericKeys replacer object)

def Node.Conforms (replacer : Replacer) : Node → Prop
  | .array _ => True
  | .object plain => Keys.Conforms replacer plain
  | .promise _ => False

theorem Node.writtenAsPrescribed_iff (replacer : Replacer) (node : Node) :
    node.WrittenAsPrescribed replacer ↔ node.Conforms replacer := by
  cases node with
  | array items => simp [WrittenAsPrescribed,Node.Conforms,jsonWritten,prescribed]
  | promise object => simp [WrittenAsPrescribed,Node.Conforms,jsonWritten,prescribed]
  | object object =>
    rw [Node.Conforms,← Keys.writtenAsPrescribed_iff,WrittenAsPrescribed,Keys.WrittenAsPrescribed]
    refine and_congr (by simp [jsonWritten,prescribed]) ⟨fun alike keys => alike object keys rfl,fun alike other keys same => ?_⟩
    cases same
    exact alike keys

def genericOnly (_ : Object Value) : Option (List Bytes) := none

section
variable {collect : Object Value → Option (List Bytes)} (chosen : collect = jsonCollectOwnKeys ∨ collect = genericOnly)
  {context : Context}
include collect chosen context

theorem jsonWriteObject_eq (appends : Appends write serialize) (depth : Nat) {object : Object Value}
    (conforms : Conforms context.replacer object) (out : Bytes) :
    jsonWriteObject collect context write depth object out =
      (serializeAll (serializeMember context serialize) (specMembers context.replacer object)).map fun parts =>
        out ++ wrap context depth 0x7B 0x7D parts := by
  have generic : jsonWriteObjectGeneric context write depth object out =
      (serializeAll (serializeMember context serialize) (specMembers context.replacer object)).map fun parts =>
        out ++ wrap context depth 0x7B 0x7D parts := by
    unfold jsonWriteObjectGeneric
    rw [jsonWriteMembers_object context appends,(generic_as_prescribed_iff context.replacer object).mpr conforms]
  unfold jsonWriteObject
  rcases chosen with rfl | rfl
  · cases fast : jsonCollectOwnKeys object with
    | none => exact generic
    | some keys =>
      simp only [jsonWriteObjectFast]
      rw [jsonWriteMembers_object context appends,fast_as_generic fast conforms]
  · exact generic

section
variable (conforms : ∀ id, (heap id).Conforms context.replacer)
include conforms

theorem jsonWriteImpl_appends (levels depth : Nat) :
    Appends (jsonWriteImpl collect context heap levels depth) (serializeProperty context heap levels depth) := by
  induction levels generalizing depth with
  | zero =>
    intro out value
    cases value with
    | atom text => rfl
    | bigint => rfl
    | ref id =>
      have known := conforms id
      rw [jsonWriteImpl,serializeProperty]
      cases node : heap id with
      | array items => rfl
      | object object => rfl
      | promise object =>
        rw [node] at known
        exact known.elim
  | succ levels ih =>
    intro out value
    cases value with
    | atom text => rfl
    | bigint => rfl
    | ref id =>
      have known := conforms id
      rw [jsonWriteImpl,serializeProperty]
      cases node : heap id with
      | promise object =>
        rw [node] at known
        exact known.elim
      | array items =>
        simp only
        rw [jsonWriteArray_eq context (ih (depth + 1))]
        cases serializeAll (serializeItem (serializeProperty context heap levels (depth + 1))) items <;> rfl
      | object object =>
        simp only
        rw [node] at known
        rw [jsonWriteObject_eq chosen (ih (depth + 1)) depth known]
        cases serializeAll (serializeMember context (serializeProperty context heap levels (depth + 1)))
          (specMembers context.replacer object) <;> rfl

theorem jsJsonStringify_eq {value : Option Value} :
    jsJsonStringify collect context heap value = stringify context heap value := by
  cases value with
  | none => rfl
  | some value =>
    rw [jsJsonStringify,stringify,jsonWriteImpl_appends chosen conforms]
    cases serializeProperty context heap maxDepth 0 value <;> rfl

end

end

/-- Every node has exactly its prescribed members written, in their order and by both writers alike,
if and only if every node conforms. Then the texts are the language's, with either writer. -/
theorem objects_are_serialized_as_prescribed_iff (context : Context) (heap : Heap) :
    ((∀ id, (heap id).WrittenAsPrescribed context.replacer) ↔ ∀ id, (heap id).Conforms context.replacer) ∧
    ((∀ id, (heap id).Conforms context.replacer) → ∀ value,
      jsJsonStringify jsonCollectOwnKeys context heap value = stringify context heap value ∧
        jsJsonStringify genericOnly context heap value = stringify context heap value) := by
  constructor
  · exact forall_congr' fun id => (heap id).writtenAsPrescribed_iff context.replacer
  · intro conforms value
    exact ⟨jsJsonStringify_eq (.inl rfl) conforms,jsJsonStringify_eq (.inr rfl) conforms⟩

def data (name : Bytes) (value : Nat) : Property Value := ⟨.string name,true,false,false,some (.atom [value])⟩

def plain (indent : Bytes) (replacer : Replacer) : Context := ⟨indent,fun key => [0x22] ++ key ++ [0x22],replacer⟩

def orderly : Object Value := ⟨⟨[data [0x62] 0x31,data [0x61] 0x32],by decide⟩,[]⟩

def orderlyHeap : Heap := fun id => if id = 0 then .object orderly else .array [some (.ref 0),none]

theorem orderly_objects_are_serialized_as_prescribed :
    jsJsonStringify jsonCollectOwnKeys (plain [0x20] .none) orderlyHeap (some (.ref 1)) =
        stringify (plain [0x20] .none) orderlyHeap (some (.ref 1)) ∧
      jsJsonStringify genericOnly (plain [0x20] .none) orderlyHeap (some (.ref 1)) =
        stringify (plain [0x20] .none) orderlyHeap (some (.ref 1)) := by
  refine (objects_are_serialized_as_prescribed_iff (plain [0x20] .none) orderlyHeap).2 (fun id => ?_) (some (.ref 1))
  unfold orderlyHeap
  split
  · exact (generic_as_prescribed_iff .none orderly).mp (by decide +kernel)
  · trivial

def withGetter : Layer Value := ⟨[⟨.string [0x69],true,true,false,some (.atom [0x31])⟩],by decide⟩

def texts (replacer : Replacer) (node : Node) : List (Option (Option Bytes)) :=
  [jsJsonStringify jsonCollectOwnKeys (plain [] replacer) (fun _ => node) (some (.ref 0)),
    jsJsonStringify genericOnly (plain [] replacer) (fun _ => node) (some (.ref 0)),
    stringify (plain [] replacer) (fun _ => node) (some (.ref 0))].map Except.toOption

def ascii (text : String) : Option (Option Bytes) := some (some (text.toList.map Char.toNat))

/-- An inherited getter is written beside an index, and by one writer only without it; a list does not
order the members; a key with a zero byte is read by its beginning; an object with a length counts as a list, and a promise is null. -/
theorem inherited_getters_lists_and_zero_bytes_fail :
    texts .none (.object ⟨⟨[data [0x30] 0x37],by decide⟩,[withGetter]⟩) =
      [ascii "\x7b\"0\":7,\"i\":1\x7d",ascii "\x7b\"0\":7,\"i\":1\x7d",ascii "\x7b\"0\":7\x7d"] ∧
    texts .none (.object ⟨⟨[data [0x78] 0x37],by decide⟩,[withGetter]⟩) =
      [ascii "\x7b\"x\":7\x7d",ascii "\x7b\"x\":7,\"i\":1\x7d",ascii "\x7b\"x\":7\x7d"] ∧
    texts (.list true [.string [0x61],.string [0x62]]) (.object orderly) =
      [ascii "\x7b\"b\":1,\"a\":2\x7d",ascii "\x7b\"b\":1,\"a\":2\x7d",ascii "\x7b\"a\":2,\"b\":1\x7d"] ∧
    texts .none (.object ⟨⟨[data [0x30] 0x37,data [0x78,0] 0x38],by decide⟩,[]⟩) =
      [ascii "\x7b\"0\":7\x7d",ascii "\x7b\"0\":7\x7d",ascii "\x7b\"0\":7,\"x\x00\":8\x7d"] ∧
    texts (.list false []) (.object orderly) = [ascii "\x7b\x7d",ascii "\x7b\x7d",ascii "\x7b\"b\":1,\"a\":2\x7d"] ∧
    texts .none (.promise ⟨⟨[],by decide⟩,[]⟩) = [ascii "null",ascii "null",ascii "\x7b\x7d"] := by
  refine ⟨?_,?_,?_,?_,?_,?_⟩ <;> decide +kernel

end Ant.Json.Stringify
