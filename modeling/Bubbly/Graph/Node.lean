import Bubbly.Schema
import Mathlib.Data.List.GetD

/-!
# Schema nodes and edges

A `SchemaNode` wraps a table and the list of its edges; an edge holds a `*SchemaNode`. Pointers
are modelled as addresses into a heap, a list of nodes: allocation appends, and
`addEdgeFromJoin` appends to the edge lists of two heap cells. A `SchemaGraph` is a heap with
its root pointers (`Nodes`) and the name index (`NodeIndex`); it carries, as fields, that every
pointer it holds addresses a heap cell, as a non-nil Go pointer does.

**Frame lemmas.** `addEdgeFromJoin` changes only edge lists, and only by appending
`edgesOfJoin`; every later proof reads the heap through these two facts.
-/

namespace Bubbly

/-- `RelType`: the relationship a directed edge `a → b` describes. -/
inductive RelType
  | oneToOne | oneToMany | belongsTo
  deriving DecidableEq, Repr

/-- `SchemaEdge`: an edge to the node at address `node`. -/
structure SchemaEdge where
  node : Nat
  rel : RelType
  deriving DecidableEq, Repr

/-- `SchemaEdge.isScalar`: the node the edge points to is returned as a scalar, unless the
relationship is one-to-many. -/
def SchemaEdge.isScalar (e : SchemaEdge) : Bool :=
  e.rel != .oneToMany

/-- `SchemaNode`: a table and its edges. -/
structure SchemaNode where
  table : Table
  edges : List SchemaEdge
  deriving Inhabited

/-- The node a pointer addresses. -/
def deref (heap : List SchemaNode) (p : Nat) : SchemaNode :=
  heap.getD p default

/-- The table name of the node a pointer addresses: the key of the visited set. -/
def nameOf (heap : List SchemaNode) (p : Nat) : String :=
  (deref heap p).table.name

/-- `SchemaNode.Edge`: the first edge of `n` to a node named `node`. -/
def SchemaNode.edge (heap : List SchemaNode) (n : SchemaNode) (node : String) :
    Except String SchemaEdge :=
  match n.edges.find? fun e => nameOf heap e.node == node with
  | some e => .ok e
  | none => .error ("edge does not exist between nodes " ++ n.table.name ++ " --> " ++ node)

/-! ## Adding edges -/

/-- Append an edge to the node at `p` (`n.Edges = append(n.Edges, e)`). -/
def appendEdge (heap : List SchemaNode) (p : Nat) (e : SchemaEdge) : List SchemaNode :=
  heap.modify (fun n => { n with edges := n.edges ++ [e] }) p

/-- The relationship of a parent's edge to a child: one-to-one when `unique`. -/
def forwardRel (unique : Bool) : RelType :=
  if unique then .oneToOne else .oneToMany

@[simp] theorem forwardRel_ne_belongsTo (unique : Bool) : forwardRel unique ≠ .belongsTo := by
  cases unique <;> decide

@[simp] theorem forwardRel_eq_oneToMany (unique : Bool) :
    forwardRel unique = .oneToMany ↔ unique = false := by
  cases unique <;> decide

/-- `SchemaNode.addEdgeFromJoin`: the parent `n` gets an edge to `child`, and `child` a
belongs-to edge back to `n`. -/
def addEdgeFromJoin (heap : List SchemaNode) (n child : Nat) (unique : Bool) :
    List SchemaNode :=
  let edgeToChild : SchemaEdge := ⟨child, forwardRel unique⟩
  let edgeToParent : SchemaEdge := ⟨n, .belongsTo⟩
  appendEdge (appendEdge heap n edgeToChild) child edgeToParent

/-- The edges `addEdgeFromJoin n child unique` appends to the node at `q`. -/
def edgesOfJoin (q n child : Nat) (unique : Bool) : List SchemaEdge :=
  (if n = q then [⟨child, forwardRel unique⟩] else []) ++
    (if child = q then [⟨n, .belongsTo⟩] else [])

theorem deref_of_lt {heap : List SchemaNode} {p : Nat} (hp : p < heap.length) :
    deref heap p = heap[p] :=
  List.getD_eq_getElem _ _ hp

theorem deref_of_le {heap : List SchemaNode} {p : Nat} (hp : heap.length ≤ p) :
    deref heap p = default :=
  List.getD_eq_default _ _ hp

@[simp] theorem length_appendEdge (heap : List SchemaNode) (p : Nat) (e : SchemaEdge) :
    (appendEdge heap p e).length = heap.length := by
  simp [appendEdge]

@[simp] theorem length_addEdgeFromJoin (heap : List SchemaNode) (n child : Nat) (u : Bool) :
    (addEdgeFromJoin heap n child u).length = heap.length := by
  simp [addEdgeFromJoin]

theorem deref_appendEdge (heap : List SchemaNode) (p q : Nat) (e : SchemaEdge)
    (hq : q < heap.length) :
    deref (appendEdge heap p e) q =
      { deref heap q with edges := (deref heap q).edges ++ if p = q then [e] else [] } := by
  have hq' : q < (appendEdge heap p e).length := by simpa using hq
  rw [deref_of_lt hq, deref_of_lt hq']
  simp only [appendEdge, List.getElem_modify]
  split <;> simp

@[simp] theorem table_deref_appendEdge (heap : List SchemaNode) (p q : Nat) (e : SchemaEdge) :
    (deref (appendEdge heap p e) q).table = (deref heap q).table := by
  by_cases hq : q < heap.length
  · simp [deref_appendEdge _ _ _ _ hq]
  · have hq' : (appendEdge heap p e).length ≤ q := by simpa using hq
    rw [deref_of_le hq', deref_of_le (Nat.le_of_not_lt hq)]

@[simp] theorem nameOf_addEdgeFromJoin (heap : List SchemaNode) (n child q : Nat) (u : Bool) :
    nameOf (addEdgeFromJoin heap n child u) q = nameOf heap q := by
  simp [nameOf, addEdgeFromJoin]

@[simp] theorem table_deref_addEdgeFromJoin (heap : List SchemaNode) (n child q : Nat)
    (u : Bool) : (deref (addEdgeFromJoin heap n child u) q).table = (deref heap q).table := by
  simp [addEdgeFromJoin]

/-- **Frame lemma.** `addEdgeFromJoin` appends `edgesOfJoin` to every cell's edge list. -/
theorem edges_deref_addEdgeFromJoin (heap : List SchemaNode) (n child q : Nat) (u : Bool)
    (hq : q < heap.length) :
    (deref (addEdgeFromJoin heap n child u) q).edges =
      (deref heap q).edges ++ edgesOfJoin q n child u := by
  have hq' : q < (appendEdge heap n ⟨child, forwardRel u⟩).length := by simpa using hq
  simp only [addEdgeFromJoin, deref_appendEdge _ _ _ _ hq', deref_appendEdge _ _ _ _ hq,
    edgesOfJoin, List.append_assoc]

/-! ## Graphs -/

/-- `SchemaGraph`: the heap, the root pointers `Nodes` and the index `NodeIndex`. Every pointer
the graph holds addresses a heap cell. -/
structure SchemaGraph where
  heap : List SchemaNode
  nodes : List Nat
  nodeIndex : String → Option Nat
  nodes_lt : ∀ p ∈ nodes, p < heap.length
  edges_lt : ∀ p < heap.length, ∀ e ∈ (deref heap p).edges, e.node < heap.length
  nodeIndex_lt : ∀ x p, nodeIndex x = some p → p < heap.length

namespace SchemaGraph

variable (g : SchemaGraph)

/-- The node at address `p`. -/
def node (p : Nat) : SchemaNode :=
  deref g.heap p

/-- The table name of the node at address `p`. -/
def name (p : Nat) : String :=
  nameOf g.heap p

@[simp] theorem table_name_node (p : Nat) : (g.node p).table.name = g.name p :=
  rfl

theorem edge_node_lt {p : Nat} (hp : p < g.heap.length) {e : SchemaEdge}
    (he : e ∈ (g.node p).edges) : e.node < g.heap.length :=
  g.edges_lt p hp e he

end SchemaGraph

end Bubbly
