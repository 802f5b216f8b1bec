import Ant.Library.ByteLayout
import Ant.Library.OrderedMap

/-! JSON documents as trees. An object keeps its members in the order of the text;
`Distinct` says that no object has a key twice. -/
namespace Ant.Library.JsonTree
open ByteLayout

mutual

inductive Value where
  | null
  | scalar
  | text (value : Bytes)
  | array (items : Items)
  | object (members : Members)
  deriving DecidableEq,Repr

inductive Items where
  | nil
  | cons (head : Value) (rest : Items)
  deriving DecidableEq,Repr

inductive Members where
  | nil
  | cons (key : Bytes) (value : Value) (rest : Members)
  deriving DecidableEq,Repr

end

def Members.entries : Members → List (Bytes × Value)
  | .nil => []
  | .cons key value rest => (key,value) :: rest.entries

def Members.keys (members : Members) : List Bytes := members.entries.map Prod.fst

def Members.get (members : Members) (key : Bytes) : Option Value := OrderedMap.find key members.entries

mutual

def Value.Distinct : Value → Prop
  | .array items => items.Distinct
  | .object members => members.keys.Nodup ∧ members.Distinct
  | _ => True

def Items.Distinct : Items → Prop
  | .nil => True
  | .cons head rest => head.Distinct ∧ rest.Distinct

def Members.Distinct : Members → Prop
  | .nil => True
  | .cons _ value rest => value.Distinct ∧ rest.Distinct

end

end Ant.Library.JsonTree
