import Bubbly.Graph.Node

/-!
# Building the schema graph

`NewSchemaGraph` makes two passes over the declared tables. `createFrom` allocates a node for
every table, at every depth, and points the table's name at it in the `nodeRefMap`; a repeated
name ends up pointing at its last table. `connectFrom` then adds the edges of every link: the
table's joins, each target looked up in the map, and its link to the table it is nested in. An
unknown join target stops the loop with an error, but the error of the recursive call for the
nested tables is dropped, as the code drops it.

**Two levels.** `createFrom` is `declaredTables` folded through `alloc` (`createFrom_eq_foldl`),
and when every join resolves, `connectFrom` is `declaredLinks` folded through `addLink`
(`connect_eq_foldl`). Everything about the shape of the graph is read off these two folds.
-/

namespace Bubbly

/-- The heap being built and the `nodeRefMap`, from table names to node pointers. -/
structure BuildState where
  heap : List SchemaNode
  nodes : String → Option Nat

/-- The state before `createFrom`: an empty heap and an empty map. -/
def BuildState.empty : BuildState :=
  ⟨[], fun _ => none⟩

/-- The pointer the `nodeRefMap` holds for a name. `createFrom` maps every declared name, so the
default is never read. -/
def ptrOf (nodes : String → Option Nat) (x : String) : Nat :=
  (nodes x).getD 0

/-- `(*nodes)[t.Name] = &SchemaNode{Table: &tables[index]}`. -/
def alloc (st : BuildState) (t : Table) : BuildState :=
  ⟨st.heap ++ [⟨t, []⟩], Function.update st.nodes t.name (some st.heap.length)⟩

mutual
/-- The body of `createFrom`'s loop: the table's node, then the nodes of its nested tables. -/
def Table.create : Table → BuildState → BuildState
  | t@⟨_, _, ts, _, _⟩, st => createFrom ts (alloc st t)

/-- `nodeRefMap.createFrom`. -/
def createFrom : List Table → BuildState → BuildState
  | [], st => st
  | t :: ts, st => createFrom ts (t.create st)
end

/-- The explicit-join loop of `connectFrom`, for the table `name` whose node is `node`. -/
def connectJoins (nodes : String → Option Nat) (name : String) (node : Nat) :
    List TableJoin → List SchemaNode → List SchemaNode × Option String
  | [], heap => (heap, none)
  | j :: js, heap =>
    match nodes j.table with
    | none => (heap, some ("join refers to unknown table: " ++ name ++ " --> " ++ j.table))
    | some parent => connectJoins nodes name node js (addEdgeFromJoin heap parent node j.single)

mutual
/-- The body of `connectFrom`'s loop. `table.Tables = nil` clears the loop's copy of the table,
which nothing reads again, so it has no counterpart here. -/
def Table.connect (nodes : String → Option Nat) (parent : Option Nat) :
    Table → List SchemaNode → List SchemaNode × Option String
  | ⟨name, _, ts, joins, single⟩, heap =>
    let node := ptrOf nodes name
    match connectJoins nodes name node joins heap with
    | (heap, some err) => (heap, some err)
    | (heap, none) =>
      let heap := match parent with
        | some p => addEdgeFromJoin heap p node single
        | none => heap
      ((connectFrom nodes (some node) ts heap).1, none)

/-- `nodeRefMap.connectFrom`. -/
def connectFrom (nodes : String → Option Nat) (parent : Option Nat) :
    List Table → List SchemaNode → List SchemaNode × Option String
  | [], heap => (heap, none)
  | t :: ts, heap =>
    match t.connect nodes parent heap with
    | (heap, some err) => (heap, some err)
    | (heap, none) => connectFrom nodes parent ts heap
end

/-! ## The node pass -/

mutual
theorem Table.create_eq_foldl : (t : Table) → (st : BuildState) →
    t.create st = (t :: declaredTables t.tables).foldl alloc st
  | ⟨_, _, ts, _, _⟩, st => by
    rw [Table.create, createFrom_eq_foldl ts]; rfl

/-- `createFrom` allocates the declared tables in declaration order. -/
theorem createFrom_eq_foldl : (ts : List Table) → (st : BuildState) →
    createFrom ts st = (declaredTables ts).foldl alloc st
  | [], st => by simp [createFrom]
  | t :: ts, st => by
    rw [createFrom, createFrom_eq_foldl ts, t.create_eq_foldl, declaredTables_cons,
      List.foldl_append]
end

theorem foldl_alloc_heap (L : List Table) (st : BuildState) :
    (L.foldl alloc st).heap = st.heap ++ L.map fun t => ⟨t, []⟩ := by
  induction L generalizing st with
  | nil => simp
  | cons t L ih => simp [ih, alloc]

/-- The map after allocating `L`: a name points at the last table of `L` that has it. -/
theorem foldl_alloc_nodes (L : List Table) {x : String} {p : Nat}
    (h : (L.foldl alloc BuildState.empty).nodes x = some p) :
    ∃ hp : p < L.length, L[p].name = x := by
  induction L using List.reverseRecOn generalizing p with
  | nil => simp [BuildState.empty] at h
  | append_singleton L t ih =>
    have hlen : (L.foldl alloc BuildState.empty).heap.length = L.length := by
      simp [foldl_alloc_heap, BuildState.empty]
    rw [List.foldl_concat] at h
    simp only [alloc, hlen] at h
    by_cases hx : x = t.name
    · subst hx
      simp only [Function.update_same, Option.some.injEq] at h
      subst h
      exact ⟨by simp, by simp⟩
    · rw [Function.update_noteq hx] at h
      obtain ⟨hp, hname⟩ := ih h
      exact ⟨by simp; omega, by rw [List.getElem_append_left hp]; exact hname⟩

theorem foldl_alloc_nodes_isSome (L : List Table) (st : BuildState) {x : String}
    (h : x ∈ L.map (·.name)) : ((L.foldl alloc st).nodes x).isSome := by
  induction L using List.reverseRecOn with
  | nil => simp at h
  | append_singleton L t ih =>
    rw [List.foldl_concat]
    by_cases hx : x = t.name
    · simp [alloc, hx]
    · simp only [List.map_append, List.map_cons, List.map_nil, List.mem_append,
        List.mem_singleton, hx, or_false] at h
      simp [alloc, Function.update_noteq hx, ih h]

/-! ## The edge pass -/

section Connect

variable {nodes : String → Option Nat}

theorem length_connectJoins (name : String) (node : Nat) :
    ∀ (js : List TableJoin) (heap : List SchemaNode),
      (connectJoins nodes name node js heap).1.length = heap.length
  | [], _ => rfl
  | j :: js, heap => by
    unfold connectJoins
    split
    · rfl
    · rw [length_connectJoins name node js]; simp

mutual
theorem Table.length_connect (parent : Option Nat) : ∀ (t : Table) (heap : List SchemaNode),
    (t.connect nodes parent heap).1.length = heap.length
  | ⟨name, _, ts, joins, single⟩, heap => by
    have hj : (connectJoins nodes name (ptrOf nodes name) joins heap).1.length = heap.length :=
      length_connectJoins name (ptrOf nodes name) joins heap
    rcases h : connectJoins nodes name (ptrOf nodes name) joins heap with ⟨heap', _ | err⟩
    · rw [h] at hj
      cases parent <;> simp [Table.connect, h, length_connectFrom, hj]
    · rw [h] at hj
      simp [Table.connect, h, hj]

theorem length_connectFrom (parent : Option Nat) : ∀ (ts : List Table) (heap : List SchemaNode),
    (connectFrom nodes parent ts heap).1.length = heap.length
  | [], _ => rfl
  | t :: ts, heap => by
    unfold connectFrom
    split
    · next h => rw [← t.length_connect parent heap, h]
    · next h => rw [length_connectFrom parent ts, ← t.length_connect parent heap, h]
end

/-- Every edge of the heap points below `n`. -/
def EdgesBelow (n : Nat) (heap : List SchemaNode) : Prop :=
  ∀ p < heap.length, ∀ e ∈ (deref heap p).edges, e.node < n

theorem EdgesBelow.addEdgeFromJoin {n a c : Nat} {heap : List SchemaNode}
    (h : EdgesBelow n heap) (ha : a < n) (hc : c < n) (u : Bool) :
    EdgesBelow n (addEdgeFromJoin heap a c u) := by
  intro p hp e he
  rw [length_addEdgeFromJoin] at hp
  rw [edges_deref_addEdgeFromJoin _ _ _ _ _ hp, List.mem_append] at he
  rcases he with he | he
  · exact h p hp e he
  · simp only [edgesOfJoin, List.mem_append] at he
    rcases he with he | he <;> split_ifs at he <;> simp_all

theorem ptrOf_lt {n : Nat} (hidx : ∀ x p, nodes x = some p → p < n) {x : String}
    (hx : (nodes x).isSome) : ptrOf nodes x < n := by
  obtain ⟨p, hp⟩ := Option.isSome_iff_exists.mp hx
  simpa [ptrOf, hp] using hidx x p hp

section Valid

variable {n : Nat} (hidx : ∀ x p, nodes x = some p → p < n)

include hidx in
theorem EdgesBelow.connectJoins {name : String} {node : Nat} (hnode : node < n) :
    ∀ (js : List TableJoin) {heap : List SchemaNode}, EdgesBelow n heap →
      EdgesBelow n (connectJoins nodes name node js heap).1
  | [], _, h => h
  | j :: js, heap, h => by
    unfold Bubbly.connectJoins
    split
    · exact h
    · next p hp => exact EdgesBelow.connectJoins hnode js (h.addEdgeFromJoin (hidx _ _ hp) hnode _)

mutual
theorem Table.edgesBelow_connect (hidx : ∀ x p, nodes x = some p → p < n) : ∀ (t : Table) (parent : Option Nat) {heap : List SchemaNode},
    (∀ u ∈ t :: declaredTables t.tables, (nodes u.name).isSome) →
    (∀ p, parent = some p → p < n) → EdgesBelow n heap →
      EdgesBelow n (t.connect nodes parent heap).1
  | ⟨name, _, ts, joins, single⟩, parent, heap, hcov, hpar, h => by
    have hnode : ptrOf nodes name < n := ptrOf_lt hidx (hcov _ (List.mem_cons_self _ _))
    have hj : EdgesBelow n (Bubbly.connectJoins nodes name (ptrOf nodes name) joins heap).1 :=
      EdgesBelow.connectJoins hidx hnode joins h
    have hcov' : ∀ u ∈ declaredTables ts, (nodes u.name).isSome :=
      fun u hu => hcov u (List.mem_cons_of_mem _ hu)
    rcases hc : Bubbly.connectJoins nodes name (ptrOf nodes name) joins heap with
      ⟨heap', _ | err⟩ <;> rw [hc] at hj
    · have hnode' : ∀ p, some (ptrOf nodes name) = some p → p < n := by simpa using hnode
      cases parent with
      | none =>
        simpa [Table.connect, hc] using edgesBelow_connectFrom hidx ts _ hcov' hnode' hj
      | some p =>
        simpa [Table.connect, hc] using edgesBelow_connectFrom hidx ts _ hcov' hnode'
          (hj.addEdgeFromJoin (hpar p rfl) hnode single)
    · simpa [Table.connect, hc] using hj

theorem edgesBelow_connectFrom (hidx : ∀ x p, nodes x = some p → p < n) : ∀ (ts : List Table) (parent : Option Nat) {heap : List SchemaNode},
    (∀ u ∈ declaredTables ts, (nodes u.name).isSome) →
    (∀ p, parent = some p → p < n) → EdgesBelow n heap →
      EdgesBelow n (connectFrom nodes parent ts heap).1
  | [], _, _, _, _, h => h
  | t :: ts, parent, heap, hcov, hpar, h => by
    have ht := Table.edgesBelow_connect hidx t parent
      (fun u hu => hcov u (mem_declaredTables_cons_of_head hu)) hpar h
    unfold connectFrom
    split
    · next hc => simpa [hc] using ht
    · next hc =>
      rw [hc] at ht
      exact edgesBelow_connectFrom hidx ts parent
        (fun u hu => hcov u (mem_declaredTables_cons_of_tail hu)) hpar ht
end

end Valid

/-! ### Errors -/

theorem connectJoins_error_iff (name : String) (node : Nat) :
    ∀ (js : List TableJoin) (heap : List SchemaNode),
      (connectJoins nodes name node js heap).2.isSome ↔ ∃ j ∈ js, nodes j.table = none
  | [], _ => by simp [connectJoins]
  | j :: js, heap => by
    unfold connectJoins
    split
    · next h => simp [h]
    · next p h => simp [connectJoins_error_iff name node js, h]

/-- A table's loop body fails exactly on an unknown target of its own joins: the error of the
nested tables is dropped. -/
theorem Table.connect_error_iff (parent : Option Nat) (t : Table) (heap : List SchemaNode) :
    (t.connect nodes parent heap).2.isSome ↔ ∃ j ∈ t.joins, nodes j.table = none := by
  obtain ⟨name, _, ts, joins, single⟩ := t
  rw [← connectJoins_error_iff name (ptrOf nodes name) joins heap]
  rcases hc : connectJoins nodes name (ptrOf nodes name) joins heap with ⟨heap', _ | err⟩ <;>
    simp [Table.connect, hc]

/-- `connectFrom` fails exactly when a table of the list itself (not one nested in it) joins an
unknown table. -/
theorem connectFrom_error_iff (parent : Option Nat) :
    ∀ (ts : List Table) (heap : List SchemaNode),
      (connectFrom nodes parent ts heap).2.isSome ↔ ∃ t ∈ ts, ∃ j ∈ t.joins, nodes j.table = none
  | [], _ => by simp [connectFrom]
  | t :: ts, heap => by
    have ht : (t.connect nodes parent heap).2.isSome ↔ _ := Table.connect_error_iff parent t heap
    rcases hc : t.connect nodes parent heap with ⟨heap', _ | err⟩ <;> rw [hc] at ht
    · have ht' : ¬ ∃ j ∈ t.joins, nodes j.table = none := by simpa using ht
      simp only [connectFrom, hc, connectFrom_error_iff parent ts, List.mem_cons,
        exists_eq_or_imp, ht', false_or]
    · simp only [connectFrom, hc, Option.isSome_some, true_iff]
      exact ⟨t, List.mem_cons_self _ _, by simpa using ht⟩

/-! ### Links -/

/-- The edges of a link, added through the pointers the map holds for its two names. -/
def addLink (nodes : String → Option Nat) (heap : List SchemaNode) (l : Link) :
    List SchemaNode :=
  addEdgeFromJoin heap (ptrOf nodes l.parent) (ptrOf nodes l.child) l.single

theorem connectJoins_eq_foldl (name : String) :
    ∀ (js : List TableJoin) (heap : List SchemaNode), (∀ j ∈ js, (nodes j.table).isSome) →
      connectJoins nodes name (ptrOf nodes name) js heap =
        ((js.map fun j => (⟨j.table, name, j.single⟩ : Link)).foldl (addLink nodes) heap, none)
  | [], _, _ => rfl
  | j :: js, heap, h => by
    obtain ⟨p, hp⟩ := Option.isSome_iff_exists.mp (h j (List.mem_cons_self _ _))
    simp only [connectJoins, hp, List.map_cons, List.foldl_cons]
    rw [connectJoins_eq_foldl name js _ fun j' hj' => h j' (List.mem_cons_of_mem _ hj')]
    simp [addLink, ptrOf, hp]

mutual
theorem Table.connect_eq_foldl (parent : Option String) : ∀ (t : Table) (heap : List SchemaNode),
    (∀ u ∈ t :: declaredTables t.tables, ∀ j ∈ u.joins, (nodes j.table).isSome) →
      t.connect nodes (parent.map (ptrOf nodes)) heap =
        ((joinLinks t ++ nestLink parent t ++ tablesLinks (some t.name) t.tables).foldl
          (addLink nodes) heap, none)
  | ⟨name, _, ts, joins, single⟩, heap, h => by
    have hj := connectJoins_eq_foldl name joins heap (h _ (List.mem_cons_self _ _))
    have hts := fun heap' => connect_eq_foldl (some name) ts heap'
      fun u hu => h u (List.mem_cons_of_mem _ hu)
    simp only [Option.map_some'] at hts
    cases parent <;>
      simp [Table.connect, hj, hts, joinLinks, nestLink, List.foldl_append, addLink]

/-- **Simulation.** When every join resolves, `connectFrom` adds the edges of the declared links,
one link after the other. -/
theorem connect_eq_foldl (parent : Option String) : ∀ (ts : List Table) (heap : List SchemaNode),
    (∀ u ∈ declaredTables ts, ∀ j ∈ u.joins, (nodes j.table).isSome) →
      connectFrom nodes (parent.map (ptrOf nodes)) ts heap =
        ((tablesLinks parent ts).foldl (addLink nodes) heap, none)
  | [], _, _ => by simp [connectFrom]
  | t :: ts, heap, h => by
    rw [connectFrom, Table.connect_eq_foldl parent t heap fun u hu =>
      h u (mem_declaredTables_cons_of_head hu)]
    simp only
    rw [connect_eq_foldl parent ts _ fun u hu => h u (mem_declaredTables_cons_of_tail hu)]
    simp [List.foldl_append]
end

end Connect

/-! ## `NewSchemaGraph` -/

/-- The build state after `nodes.createFrom(tables)`. -/
def created (tables : List Table) : BuildState :=
  createFrom tables BuildState.empty

theorem created_heap (tables : List Table) :
    (created tables).heap = (declaredTables tables).map fun t => ⟨t, []⟩ := by
  simp [created, createFrom_eq_foldl, foldl_alloc_heap, BuildState.empty]

theorem created_nodes_some {tables : List Table} {x : String} {p : Nat}
    (h : (created tables).nodes x = some p) :
    ∃ hp : p < (declaredTables tables).length, (declaredTables tables)[p].name = x := by
  rw [created, createFrom_eq_foldl] at h
  exact foldl_alloc_nodes _ h

theorem created_nodes_isSome {tables : List Table} {x : String}
    (h : x ∈ declaredNames tables) : ((created tables).nodes x).isSome := by
  rw [created, createFrom_eq_foldl]
  exact foldl_alloc_nodes_isSome _ _ h

theorem created_nodes_lt (tables : List Table) :
    ∀ x p, (created tables).nodes x = some p → p < (created tables).heap.length := by
  intro x p h
  simpa [created_heap] using (created_nodes_some h).1

theorem created_covers (tables : List Table) :
    ∀ u ∈ declaredTables tables, ((created tables).nodes u.name).isSome :=
  fun u hu => created_nodes_isSome (mem_declaredNames.mpr ⟨u, hu, rfl⟩)

/-- The roots: `nodes[table.Name]` for every top-level table without joins. -/
def rootsOf (nodes : String → Option Nat) (tables : List Table) : List Nat :=
  (tables.filter fun t => t.joins.isEmpty).map fun t => ptrOf nodes t.name

/-- The heap and the error after `nodes.connectFrom(tables, nil)`. -/
def connected (tables : List Table) : List SchemaNode × Option String :=
  connectFrom (created tables).nodes none tables (created tables).heap

theorem length_connected (tables : List Table) :
    (connected tables).1.length = (created tables).heap.length :=
  length_connectFrom none tables _

theorem rootsOf_lt (tables : List Table) :
    ∀ p ∈ rootsOf (created tables).nodes tables, p < (connected tables).1.length := by
  simp only [rootsOf, List.mem_map, List.mem_filter, length_connected]
  rintro _ ⟨t, ⟨ht, -⟩, rfl⟩
  exact ptrOf_lt (created_nodes_lt tables) (created_covers tables t (mem_declaredTables_of_mem ht))

theorem edgesBelow_connected (tables : List Table) :
    EdgesBelow (connected tables).1.length (connected tables).1 := by
  rw [length_connected]
  refine edgesBelow_connectFrom (created_nodes_lt tables) tables none (created_covers tables)
    (by simp) ?_
  intro p hp e he
  rw [created_heap] at hp
  rw [created_heap, deref_of_lt hp] at he
  simp at he

theorem nodeIndex_lt_connected (tables : List Table) :
    ∀ x p, (created tables).nodes x = some p → p < (connected tables).1.length := by
  rw [length_connected]; exact created_nodes_lt tables

/-- `NewSchemaGraph`: the graph, and the error `connectFrom` stopped at, if any. -/
def NewSchemaGraph (tables : List Table) : SchemaGraph × Option String :=
  (⟨(connected tables).1, rootsOf (created tables).nodes tables, (created tables).nodes,
      rootsOf_lt tables, edgesBelow_connected tables, nodeIndex_lt_connected tables⟩,
    (connected tables).2.map ("failed to create graph: " ++ ·))

@[simp] theorem nodeIndex_newSchemaGraph (tables : List Table) :
    (NewSchemaGraph tables).1.nodeIndex = (created tables).nodes := rfl

/-- `newSchemaGraphFromMap`: the tables of the map, in the order its range loop enumerates them
(Go leaves that order unspecified; `entries` is one such enumeration). -/
def newSchemaGraphFromMap (entries : List (String × Table)) : SchemaGraph × Option String :=
  NewSchemaGraph (entries.map Prod.snd)

end Bubbly
