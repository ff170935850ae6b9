import Absolute.LibOwnedHeap
import Absolute.RtJson

/-!
# The JSON trees of the library and their owners

`JsonValue` of `std.json` over the native nodes. A node is owned by the flag of a wrapper
or by the slot of an array or an object that holds its address, and a function that deletes
or reads a node whose life has ended is undefined. Of a node there is what its ownership
needs: its type and the addresses it holds.

What is parsed is given as it is written, with each member of an object in its place; the
node of a key that comes again is overwritten in the map and not deleted.
-/

namespace Absolute

namespace Json

open OwnedHeap

/-! ## Native nodes -/

inductive JsonNodeType where
  | null
  | bool
  | number
  | string
  | array
  | object
deriving DecidableEq

structure Cell where
  type : JsonNodeType
  arrayElements : List ℕ
  objectProperties : List (Text × ℕ)
  sorted : Sorted objectProperties

/-- A node that holds no others. -/
def leaf (type : JsonNodeType) : Cell := ⟨type, [], [], List.Pairwise.nil⟩

/-- What the destructor deletes. -/
def Cell.children (node : Cell) : List ℕ :=
  node.arrayElements ++ node.objectProperties.map Prod.snd

def Cell.push (node : Cell) (item : ℕ) : Cell :=
  { node with arrayElements := node.arrayElements ++ [item] }

def Cell.setProperty (node : Cell) (key : Text) (item : ℕ) : Cell :=
  { node with
    objectProperties := assign key item node.objectProperties
    sorted := sorted_assign key item node.sorted }

abbrev Nodes := Heap Cell

/-- `absolute_json_free` -/
def jsonFree (nodes : Nodes) : Option ℕ → Option Nodes
  | none => some nodes
  | some p => delete Cell.children (nodes.next + 1) nodes p

/-- `absolute_json_get_type` -/
def jsonGetType (nodes : Nodes) : Option ℕ → Option JsonNodeType
  | none => some .null
  | some p => (nodes.cells p).map Cell.type

/-- `absolute_json_get_array_elem` -/
def jsonGetArrayElem (nodes : Nodes) (handle : Option ℕ) (index : ℤ) : Option (Option ℕ) :=
  match handle with
  | none => some none
  | some p => (nodes.cells p).map fun node =>
    if node.type ≠ .array ∨ index < 0 ∨ node.arrayElements.length ≤ index then none
    else node.arrayElements[index.toNat]?

/-- `absolute_json_get_property` -/
def jsonGetProperty (nodes : Nodes) (handle : Option ℕ) (key : Text) : Option (Option ℕ) :=
  match handle with
  | none => some none
  | some p => (nodes.cells p).map fun node =>
    if node.type ≠ .object then none else node.objectProperties.lookup key

/-- `absolute_json_array_add` -/
def jsonArrayAdd (nodes : Nodes) (handle item : Option ℕ) : Option Nodes :=
  match handle, item with
  | some p, some q => (nodes.cells p).map fun node =>
    if node.type = .array then nodes.store p (node.push q) else nodes
  | _, _ => some nodes

/-- `absolute_json_object_set` -/
def jsonObjectSet (nodes : Nodes) (handle : Option ℕ) (key : Text) (item : Option ℕ) :
    Option Nodes :=
  match handle, item with
  | some p, some q => do
    let node ← nodes.cells p
    if node.type = .object then
      let nodes ← jsonFree nodes (node.objectProperties.lookup key)
      let node ← nodes.cells p
      some (nodes.store p (node.setProperty key q))
    else some nodes
  | _, _ => some nodes

mutual

/-- The nodes of a value that is parsed, and the address of its root. -/
def allocate : Node → Nodes → Nodes × ℕ
  | .null, nodes => nodes.alloc (leaf .null)
  | .bool _, nodes => nodes.alloc (leaf .bool)
  | .number _, nodes => nodes.alloc (leaf .number)
  | .string _, nodes => nodes.alloc (leaf .string)
  | .array elements, nodes =>
    let (nodes, node) := allocateElements (leaf .array) elements nodes
    nodes.alloc node
  | .object members, nodes =>
    let (nodes, node) := allocateMembers (leaf .object) members nodes
    nodes.alloc node

def allocateElements (node : Cell) : List Node → Nodes → Nodes × Cell
  | [], nodes => (nodes, node)
  | element :: rest, nodes =>
    let (nodes, elem) := allocate element nodes
    allocateElements (node.push elem) rest nodes

def allocateMembers (node : Cell) : List (Text × Node) → Nodes → Nodes × Cell
  | [], nodes => (nodes, node)
  | (key, value) :: rest, nodes =>
    let (nodes, value) := allocate value nodes
    allocateMembers (node.setProperty key value) rest nodes

end

/-! ## Wrappers -/

structure JsonValue where
  handle : Option ℕ
  isOwner : Bool

structure State where
  nodes : Nodes
  wrappers : List JsonValue

def State.empty : State := ⟨.empty, []⟩

def State.push (s : State) (w : JsonValue) : State := { s with wrappers := s.wrappers ++ [w] }

/-- `new JsonValue(child, false)`, or null. -/
def State.pushChild (s : State) : Option ℕ → State
  | none => s
  | some child => s.push ⟨some child, false⟩

/-- The calls of the library, on wrappers by their positions. -/
inductive Op where
  | create (type : JsonNodeType)
  | parse (written : Node)
  | parseFails (overwritten : List Node)
  | getAt (i : ℕ) (index : ℤ)
  | getProp (i : ℕ) (key : Text)
  | add (i : ℕ) (item : Option ℕ)
  | addValue (i : ℕ) (type : JsonNodeType)
  | setProp (i : ℕ) (key : Text) (val : Option ℕ)
  | setValue (i : ℕ) (key : Text) (type : JsonNodeType)
  | destroy (i : ℕ)

def createValue (s : State) (type : JsonNodeType) : State :=
  let (nodes, p) := s.nodes.alloc (leaf type)
  { s with nodes }.push ⟨some p, true⟩

def parse (s : State) (written : Node) : State :=
  let (nodes, root) := allocate written s.nodes
  { s with nodes }.push ⟨some root, true⟩

/-- A text that is not parsed leaves the nodes that were overwritten. -/
def parseFails (s : State) (overwritten : List Node) : State :=
  { s with nodes := overwritten.foldl (fun nodes value => (allocate value nodes).1) s.nodes }

namespace JsonValue

def getAt (s : State) (w : JsonValue) (index : ℤ) : Option State := do
  let child ← jsonGetArrayElem s.nodes w.handle index
  some (s.pushChild child)

def getProp (s : State) (w : JsonValue) (key : Text) : Option State := do
  let child ← jsonGetProperty s.nodes w.handle key
  some (s.pushChild child)

def add (s : State) (w : JsonValue) (j : ℕ) (item : JsonValue) : Option State := do
  let type ← jsonGetType s.nodes w.handle
  if type = .array then
    let nodes ← jsonArrayAdd s.nodes w.handle item.handle
    some ⟨nodes, s.wrappers.set j { item with isOwner := false }⟩
  else some s

/-- `addNumber`, `addString`, `addBool`, `addNull` -/
def addValue (s : State) (w : JsonValue) (type : JsonNodeType) : Option State := do
  let (nodes, item) := s.nodes.alloc (leaf type)
  let nodes ← jsonArrayAdd nodes w.handle (some item)
  some { s with nodes }

def setProp (s : State) (w : JsonValue) (key : Text) (j : ℕ) (val : JsonValue) :
    Option State := do
  let type ← jsonGetType s.nodes w.handle
  if type = .object then
    let nodes ← jsonObjectSet s.nodes w.handle key val.handle
    some ⟨nodes, s.wrappers.set j { val with isOwner := false }⟩
  else some s

/-- `setNumber`, `setString`, `setBool`, `setNull` -/
def setValue (s : State) (w : JsonValue) (key : Text) (type : JsonNodeType) : Option State := do
  let (nodes, val) := s.nodes.alloc (leaf type)
  let nodes ← jsonObjectSet nodes w.handle key (some val)
  some { s with nodes }

def destroy (s : State) (i : ℕ) (w : JsonValue) : Option State :=
  if w.isOwner ∧ w.handle ≠ none then do
    let nodes ← jsonFree s.nodes w.handle
    some ⟨nodes, s.wrappers.set i { w with handle := none }⟩
  else some s

end JsonValue

def Op.step (s : State) : Op → Option State
  | .create type => some (createValue s type)
  | .parse written => some (Json.parse s written)
  | .parseFails overwritten => some (Json.parseFails s overwritten)
  | .getAt i index => do (← s.wrappers[i]?).getAt s index
  | .getProp i key => do (← s.wrappers[i]?).getProp s key
  | .add _ none => some s
  | .add i (some j) => do (← s.wrappers[i]?).add s j (← s.wrappers[j]?)
  | .addValue i type => do (← s.wrappers[i]?).addValue s type
  | .setProp _ _ none => some s
  | .setProp i key (some j) => do (← s.wrappers[i]?).setProp s key j (← s.wrappers[j]?)
  | .setValue i key type => do (← s.wrappers[i]?).setValue s key type
  | .destroy i => do (← s.wrappers[i]?).destroy s i

end Json

end Absolute
