import Bubbly.Graph.Shape

/-!
# Building from a map of tables

`newSchemaGraphFromMap` collects the tables of a map into a list with a range loop, whose order
Go leaves unspecified and changes from run to run, and hands the list to `NewSchemaGraph`. The
graph depends on that order: the roots and every node's edges come in the order the tables were
listed (`fromMap_order_matters`). What does not depend on it, when every join resolves, is
everything read by table name up to reordering: the names of the roots, the names of the index,
the target names and relationships of the edges of every name's node, and the names `Traverse`
visits (`fromMap_perm`).
-/

namespace Bubbly

theorem declaredNames_perm {ts us : List Table} (h : ts.Perm us) :
    (declaredNames ts).Perm (declaredNames us) := by
  unfold declaredNames
  rw [declaredTables_eq_flatMap, declaredTables_eq_flatMap]
  exact (h.flatMap_right _).map _

theorem declaredLinks_perm {ts us : List Table} (h : ts.Perm us) :
    (declaredLinks ts).Perm (declaredLinks us) := by
  rw [declaredLinks_eq_flatMap, declaredLinks_eq_flatMap]
  exact h.flatMap_right _

theorem joinsDeclared_perm {ts us : List Table} (h : ts.Perm us) (hj : JoinsDeclared ts) :
    JoinsDeclared us := by
  intro t ht j hj'
  have hmem : ∀ u, u ∈ declaredTables ts ↔ u ∈ declaredTables us := by
    rw [declaredTables_eq_flatMap, declaredTables_eq_flatMap]
    exact fun u => (h.flatMap_right _).mem_iff
  exact (declaredNames_perm h).mem_iff.mp (hj t ((hmem t).mpr ht) j hj')

theorem linkAdj_perm {l₁ l₂ : List Link} (h : l₁.Perm l₂) : LinkAdj l₁ = LinkAdj l₂ := by
  funext x y
  simp only [LinkAdj, h.mem_iff]

/-- The roots of the graph, by name: the top-level tables without joins, in order. -/
theorem names_nodes_newSchemaGraph {ts : List Table} (hj : JoinsDeclared ts) :
    (NewSchemaGraph ts).1.nodes.map (NewSchemaGraph ts).1.name =
      (ts.filter fun t => t.joins.isEmpty).map (·.name) := by
  show (rootsOf _ ts).map _ = _
  rw [rootsOf, List.map_map]
  refine List.map_congr_left fun t ht => name_newSchemaGraph hj ?_
  exact mem_declaredNames.mpr ⟨t, mem_declaredTables_of_mem (List.mem_filter.mp ht).1, rfl⟩

/-- **Enumeration order.** Two enumerations of one map whose joins all resolve give graphs that
agree by name up to order: both builds succeed, the roots have the same names, the index has the
same names, the node of every declared name has edges to the same names with the same
relationships, and `Traverse` visits the same names. (When two tables share a name, which of
them a name stands for can depend on the order.) -/
theorem fromMap_perm (e₁ e₂ : List (String × Table)) (hp : e₁.Perm e₂)
    (hj : JoinsDeclared (e₁.map Prod.snd)) :
    let g₁ := (newSchemaGraphFromMap e₁).1
    let g₂ := (newSchemaGraphFromMap e₂).1
    (newSchemaGraphFromMap e₁).2 = none ∧ (newSchemaGraphFromMap e₂).2 = none ∧
      (g₁.nodes.map g₁.name).Perm (g₂.nodes.map g₂.name) ∧
      (∀ x, (g₁.nodeIndex x).isSome ↔ (g₂.nodeIndex x).isSome) ∧
      (∀ x ∈ declaredNames (e₁.map Prod.snd),
        ((g₁.node (ptrOf g₁.nodeIndex x)).edges.map fun e => (g₁.name e.node, e.rel)).Perm
          ((g₂.node (ptrOf g₂.nodeIndex x)).edges.map fun e => (g₂.name e.node, e.rel))) ∧
      ∀ x, x ∈ g₁.order.map g₁.name ↔ x ∈ g₂.order.map g₂.name := by
  have hts := hp.map Prod.snd
  have hj₂ := joinsDeclared_perm hts hj
  simp only [newSchemaGraphFromMap, nodeIndex_newSchemaGraph]
  refine ⟨newSchemaGraph_error_eq_none hj, newSchemaGraph_error_eq_none hj₂, ?_, fun x => ?_,
    fun x hx => ?_, fun x => ?_⟩
  · rw [names_nodes_newSchemaGraph hj, names_nodes_newSchemaGraph hj₂]
    exact (hts.filter _).map _
  · rw [← nodeIndex_newSchemaGraph, ← nodeIndex_newSchemaGraph, nodeIndex_isSome_iff,
      nodeIndex_isSome_iff]
    exact (declaredNames_perm hts).mem_iff
  · rw [edges_byName hj hx, edges_byName hj₂ ((declaredNames_perm hts).mem_iff.mp hx)]
    exact (declaredLinks_perm hts).flatMap_right _
  · rw [mem_names_order_iff hj, mem_names_order_iff hj₂, (declaredNames_perm hts).mem_iff,
      linkAdj_perm (declaredLinks_perm hts)]
    simp only [hts.mem_iff]

/-- A map of the zoo and a keeper table that joins it. -/
def keeperMap : List (String × Table) :=
  [("zoo", zooTable), ("keeper", ⟨"keeper", [], [], [⟨"zoo", false⟩], false⟩)]

/-- Its two enumerations give the zoo the same edges, by target name, up to order. -/
theorem fromMap_perm_keeper :
    keeperMap.Perm keeperMap.reverse ∧ JoinsDeclared (keeperMap.map Prod.snd) ∧
      let g₁ := (newSchemaGraphFromMap keeperMap).1
      let g₂ := (newSchemaGraphFromMap keeperMap.reverse).1
      ((g₁.node (ptrOf g₁.nodeIndex "zoo")).edges.map fun e => (g₁.name e.node, e.rel)).Perm
        ((g₂.node (ptrOf g₂.nodeIndex "zoo")).edges.map fun e => (g₂.name e.node, e.rel)) :=
  have hp : keeperMap.Perm keeperMap.reverse := (List.reverse_perm _).symm
  ⟨hp, by decide, (fromMap_perm _ _ hp (by decide)).2.2.2.2.1 "zoo" (by decide)⟩

/-- A map of two tables without joins. -/
def twoRootsMap : List (String × Table) :=
  [("a", bareTable "a"), ("b", bareTable "b")]

/-- Its two enumerations give the roots, and the traversal, in two orders. -/
theorem fromMap_order_matters :
    twoRootsMap.reverse.Perm twoRootsMap ∧
      (newSchemaGraphFromMap twoRootsMap).1.nodes.map
          (newSchemaGraphFromMap twoRootsMap).1.name = ["a", "b"] ∧
      (newSchemaGraphFromMap twoRootsMap.reverse).1.nodes.map
          (newSchemaGraphFromMap twoRootsMap.reverse).1.name = ["b", "a"] ∧
      (newSchemaGraphFromMap twoRootsMap).1.order.map
          (newSchemaGraphFromMap twoRootsMap).1.name = ["a", "b"] ∧
      (newSchemaGraphFromMap twoRootsMap.reverse).1.order.map
          (newSchemaGraphFromMap twoRootsMap.reverse).1.name = ["b", "a"] :=
  ⟨List.reverse_perm _, by decide, by decide, by decide, by decide⟩

end Bubbly
