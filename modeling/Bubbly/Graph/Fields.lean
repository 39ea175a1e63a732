import Bubbly.Graph.Build
import Bubbly.Graph.Traverse
import Bubbly.Worker.ImplicitIDs

/-!
# The schema graph reads no field

`NewSchemaGraph` reads a table's name, the tables nested in it, its joins and its flag; it keeps
the table in the table's node, and reads nothing of its fields. `Traverse` reads names, edges and
roots. So the fields `addImplicitIDs` adds before the store builds its schema leave the graph
as it was, apart from the tables its nodes hold.

**Theorem (`newSchemaGraph_fields_independent`).** Two forests with the same shapes (`shapes`:
the forest with every table's fields removed) give the same error, the same roots and index, the
same heap up to the fields of the nodes' tables, and the same order of the nodes `Traverse`
visits.

**Proof.** Building from `shapes ts` is building from `ts` and then erasing the fields of the
table of every node (`newSchemaGraph_shapes`): each step of `createFrom` and `connectFrom`
commutes with the erasure. The search behind `Traverse` reads only names, edges and roots
(`order_congr`).
-/

namespace Bubbly

/-- A node with the fields of its table removed, at every depth. -/
def eraseNode (n : SchemaNode) : SchemaNode :=
  ⟨n.table.shape, n.edges⟩

theorem Table.shape_eq (t : Table) : t.shape = ⟨t.name, [], shapes t.tables, t.joins, t.single⟩ := by
  cases t; rfl

@[simp] theorem Table.name_shape (t : Table) : t.shape.name = t.name := by
  cases t; rfl

theorem declaredTables_shapes (ts : List Table) :
    declaredTables (shapes ts) = (declaredTables ts).map Table.shape := by
  induction ts using tables_induction with
  | nil => simp [shapes]
  | cons t ts iht ihs => simp [iht, ihs, Table.shape_eq]

theorem deref_map_eraseNode (heap : List SchemaNode) (p : Nat) :
    deref (heap.map eraseNode) p = eraseNode (deref heap p) :=
  List.getD_map heap (default : SchemaNode) eraseNode

/-! ## Building commutes with the erasure -/

theorem map_eraseNode_appendEdge (e : SchemaEdge) :
    ∀ (heap : List SchemaNode) (p : Nat),
      (appendEdge heap p e).map eraseNode = appendEdge (heap.map eraseNode) p e
  | [], _ => by simp [appendEdge]
  | _ :: _, 0 => by simp [appendEdge, eraseNode]
  | _ :: heap, p + 1 => by simpa [appendEdge] using map_eraseNode_appendEdge e heap p

theorem map_eraseNode_addEdgeFromJoin (heap : List SchemaNode) (n child : Nat) (u : Bool) :
    (addEdgeFromJoin heap n child u).map eraseNode = addEdgeFromJoin (heap.map eraseNode) n child u := by
  simp only [addEdgeFromJoin, map_eraseNode_appendEdge]

theorem foldl_alloc_shape (L : List Table) (st : BuildState) :
    (L.map Table.shape).foldl alloc ⟨st.heap.map eraseNode, st.nodes⟩ =
      ⟨(L.foldl alloc st).heap.map eraseNode, (L.foldl alloc st).nodes⟩ := by
  induction L generalizing st with
  | nil => rfl
  | cons t L ih =>
    rw [List.map_cons, List.foldl_cons, List.foldl_cons, ← ih]
    simp [alloc, eraseNode]

theorem created_shapes (ts : List Table) :
    created (shapes ts) = ⟨(created ts).heap.map eraseNode, (created ts).nodes⟩ := by
  simp only [created, createFrom_eq_foldl, declaredTables_shapes]
  exact foldl_alloc_shape _ BuildState.empty

section Connect

variable (nodes : String → Option Nat)

theorem connectJoins_eraseNode (name : String) (node : Nat) :
    ∀ (js : List TableJoin) (heap : List SchemaNode),
      connectJoins nodes name node js (heap.map eraseNode) =
        ((connectJoins nodes name node js heap).1.map eraseNode,
          (connectJoins nodes name node js heap).2)
  | [], _ => rfl
  | j :: js, heap => by
    unfold connectJoins
    cases nodes j.table with
    | none => rfl
    | some p =>
      simp only [← map_eraseNode_addEdgeFromJoin, connectJoins_eraseNode name node js]

mutual
theorem Table.connect_shape (parent : Option Nat) : ∀ (t : Table) (heap : List SchemaNode),
    t.shape.connect nodes parent (heap.map eraseNode) =
      ((t.connect nodes parent heap).1.map eraseNode, (t.connect nodes parent heap).2)
  | ⟨name, _, ts, joins, single⟩, heap => by
    simp only [Table.shape, Table.connect, connectJoins_eraseNode]
    rcases connectJoins nodes name (ptrOf nodes name) joins heap with ⟨heap', _ | err⟩
    · cases parent <;>
        simp [← map_eraseNode_addEdgeFromJoin, connectFrom_shapes (some (ptrOf nodes name)) ts]
    · rfl

theorem connectFrom_shapes (parent : Option Nat) : ∀ (ts : List Table) (heap : List SchemaNode),
    connectFrom nodes parent (shapes ts) (heap.map eraseNode) =
      ((connectFrom nodes parent ts heap).1.map eraseNode, (connectFrom nodes parent ts heap).2)
  | [], _ => rfl
  | t :: ts, heap => by
    simp only [shapes, connectFrom, t.connect_shape parent heap]
    rcases t.connect nodes parent heap with ⟨heap', _ | err⟩
    · exact connectFrom_shapes parent ts heap'
    · rfl
end

end Connect

theorem rootsOf_shapes (nodes : String → Option Nat) (ts : List Table) :
    rootsOf nodes (shapes ts) = rootsOf nodes ts := by
  induction ts with
  | nil => rfl
  | cons t ts ih =>
    simp only [rootsOf] at ih ⊢
    by_cases h : t.joins.isEmpty <;> simp [List.filter_cons, h, ih]

/-- **Building from the shapes.** The graph of the forest without its fields is the graph of the
forest, with the fields of its nodes' tables erased. -/
theorem newSchemaGraph_shapes (ts : List Table) :
    (NewSchemaGraph (shapes ts)).2 = (NewSchemaGraph ts).2 ∧
    (NewSchemaGraph (shapes ts)).1.nodes = (NewSchemaGraph ts).1.nodes ∧
    (NewSchemaGraph (shapes ts)).1.nodeIndex = (NewSchemaGraph ts).1.nodeIndex ∧
    (NewSchemaGraph (shapes ts)).1.heap = (NewSchemaGraph ts).1.heap.map eraseNode := by
  have hc : connected (shapes ts) = ((connected ts).1.map eraseNode, (connected ts).2) := by
    rw [connected, created_shapes]
    exact connectFrom_shapes _ none ts _
  simp [NewSchemaGraph, hc, created_shapes, rootsOf_shapes]

/-! ## The search reads names, edges and roots -/

/-- Two graphs that agree on their heap's length, their roots, and every node's name and edges
are searched in the same order. -/
theorem SchemaGraph.order_congr {g g' : SchemaGraph} (hlen : g'.heap.length = g.heap.length)
    (hroots : g'.nodes = g.nodes) (hname : ∀ p, g'.name p = g.name p)
    (hedges : ∀ p, (g'.node p).edges = (g.node p).edges) : g'.order = g.order := by
  have hEach : ∀ visit ps vis, g'.dfsEach visit ps vis = g.dfsEach visit ps vis := by
    intro visit ps
    induction ps with
    | nil => intro vis; rfl
    | cons p ps ih => intro vis; simp only [SchemaGraph.dfsEach, hname, ih]
  have hdfs : ∀ fuel, g'.dfs fuel = g.dfs fuel := by
    intro fuel
    induction fuel with
    | zero => rfl
    | succ fuel ih => funext p vis; simp only [SchemaGraph.dfs, hEach, hedges, hname, ih]
  simp only [SchemaGraph.order, hEach, hdfs, hlen, hroots]

theorem order_newSchemaGraph_shapes (ts : List Table) :
    (NewSchemaGraph (shapes ts)).1.order = (NewSchemaGraph ts).1.order := by
  obtain ⟨-, hroots, -, hheap⟩ := newSchemaGraph_shapes ts
  refine SchemaGraph.order_congr (by simp [hheap]) hroots (fun p => ?_) (fun p => ?_) <;>
    simp only [SchemaGraph.name, SchemaGraph.node, nameOf, hheap, deref_map_eraseNode] <;>
    simp [eraseNode]

/-- **The graph reads no field.** Two forests with the same shapes give `NewSchemaGraph` the same
error, roots and index, heaps that differ only in the fields of their nodes' tables, and the same
order of the nodes `Traverse` visits. -/
theorem newSchemaGraph_fields_independent {ts ts' : List Table} (h : shapes ts' = shapes ts) :
    (NewSchemaGraph ts').2 = (NewSchemaGraph ts).2 ∧
    (NewSchemaGraph ts').1.nodes = (NewSchemaGraph ts).1.nodes ∧
    (NewSchemaGraph ts').1.nodeIndex = (NewSchemaGraph ts).1.nodeIndex ∧
    (NewSchemaGraph ts').1.heap.map eraseNode = (NewSchemaGraph ts).1.heap.map eraseNode ∧
    (NewSchemaGraph ts').1.order = (NewSchemaGraph ts).1.order := by
  obtain ⟨he', hr', hi', hh'⟩ := newSchemaGraph_shapes ts'
  obtain ⟨he, hr, hi, hh⟩ := newSchemaGraph_shapes ts
  rw [h] at he' hr' hi' hh'
  refine ⟨he'.symm.trans he, hr'.symm.trans hr, hi'.symm.trans hi, hh'.symm.trans hh, ?_⟩
  rw [← order_newSchemaGraph_shapes ts', h, order_newSchemaGraph_shapes]

/-- The implicit identifiers of the zoo schema leave its graph as it was. -/
theorem newSchemaGraph_fields_independent_zoo :
    shapes (addImplicitIDs none zooSchema) = shapes zooSchema ∧
    (NewSchemaGraph (addImplicitIDs none zooSchema)).1.order = (NewSchemaGraph zooSchema).1.order :=
  ⟨shapes_addImplicitIDs zooSchema none,
    (newSchemaGraph_fields_independent (shapes_addImplicitIDs zooSchema none)).2.2.2.2⟩

end Bubbly
