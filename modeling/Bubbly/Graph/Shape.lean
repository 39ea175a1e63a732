import Bubbly.Graph.Build
import Bubbly.Graph.Traverse
import Mathlib.Data.List.Basic

/-!
# The shape of the schema graph

What `NewSchemaGraph` builds from a schema whose joins all resolve: the index maps each declared
name to a node holding its table, every link gives the parent an edge to the child and the child
a belongs-to edge back, in the order of `declaredLinks`, and the roots are the nodes without a
belongs-to edge.

**Proof.** `connect_eq_foldl` turns the edge pass into a fold of `addLink` over the declared
links, and the frame lemma for `addEdgeFromJoin` reads every node's edge list off that fold
(`edges_foldl_addLink`). The map from names to pointers is injective on declared names, because
the node a name points at carries that name (`nameOf_ptrOf`).
-/

namespace Bubbly

/-! ## Folding links -/

theorem table_foldl_addLink (nodes : String → Option Nat) (links : List Link)
    (heap : List SchemaNode) (q : Nat) :
    (deref (links.foldl (addLink nodes) heap) q).table = (deref heap q).table := by
  induction links generalizing heap with
  | nil => rfl
  | cons l links ih => simp [ih, addLink]

/-- Folding links appends, to every node, the edges of each link in turn. -/
theorem edges_foldl_addLink (nodes : String → Option Nat) (links : List Link)
    (heap : List SchemaNode) {q : Nat} (hq : q < heap.length) :
    (deref (links.foldl (addLink nodes) heap) q).edges =
      (deref heap q).edges ++ links.flatMap fun l =>
        edgesOfJoin q (ptrOf nodes l.parent) (ptrOf nodes l.child) l.single := by
  induction links generalizing heap with
  | nil => simp
  | cons l links ih =>
    rw [List.foldl_cons, ih _ (by simpa [addLink] using hq), addLink,
      edges_deref_addEdgeFromJoin _ _ _ _ _ hq]
    simp

/-! ## Names and pointers -/

section Created

variable {tables : List Table}

@[simp] theorem edges_deref_created (q : Nat) : (deref (created tables).heap q).edges = [] := by
  by_cases hq : q < (created tables).heap.length
  · have hq' : q < ((declaredTables tables).map fun t => (⟨t, []⟩ : SchemaNode)).length := by
      rwa [← created_heap]
    rw [deref_of_lt hq]
    simp only [created_heap, List.getElem_map]
  · rw [deref_of_le (Nat.le_of_not_lt hq)]; rfl

/-- The node a declared name points at, and the table it holds. -/
theorem ptrOf_created {x : String} (hx : x ∈ declaredNames tables) :
    ∃ t ∈ declaredTables tables, t.name = x ∧
      (created tables).nodes x = some (ptrOf (created tables).nodes x) ∧
      ptrOf (created tables).nodes x < (created tables).heap.length ∧
      (deref (created tables).heap (ptrOf (created tables).nodes x)).table = t := by
  obtain ⟨p, hp⟩ := Option.isSome_iff_exists.mp (created_nodes_isSome hx)
  obtain ⟨hlt, hname⟩ := created_nodes_some hp
  have hlt' : p < (created tables).heap.length := by simpa [created_heap] using hlt
  refine ⟨_, List.getElem_mem hlt, hname, by simp [ptrOf, hp], by simpa [ptrOf, hp] using hlt', ?_⟩
  simp only [ptrOf, hp, Option.getD_some, deref_of_lt hlt']
  simp only [created_heap, List.getElem_map]

theorem nameOf_ptrOf {x : String} (hx : x ∈ declaredNames tables) :
    nameOf (created tables).heap (ptrOf (created tables).nodes x) = x := by
  obtain ⟨t, -, rfl, -, -, ht⟩ := ptrOf_created hx
  simp [nameOf, ht]

theorem ptrOf_inj {x y : String} (hx : x ∈ declaredNames tables)
    (hy : y ∈ declaredNames tables) :
    ptrOf (created tables).nodes x = ptrOf (created tables).nodes y ↔ x = y :=
  ⟨fun h => by rw [← nameOf_ptrOf hx, h, nameOf_ptrOf hy], fun h => h ▸ rfl⟩

/-- With distinct names, the node of a declared table holds that table. -/
theorem table_ptrOf (hd : NamesDistinct tables) {t : Table} (ht : t ∈ declaredTables tables) :
    (deref (created tables).heap (ptrOf (created tables).nodes t.name)).table = t := by
  obtain ⟨u, hu, hname, -, -, hu'⟩ := ptrOf_created (mem_declaredNames.mpr ⟨t, ht, rfl⟩)
  rw [hu']
  exact List.inj_on_of_nodup_map hd hu ht hname

end Created

/-- The index maps exactly the declared names. -/
theorem nodeIndex_isSome_iff (tables : List Table) (x : String) :
    ((NewSchemaGraph tables).1.nodeIndex x).isSome ↔ x ∈ declaredNames tables := by
  refine ⟨fun h => ?_, created_nodes_isSome⟩
  obtain ⟨p, hp⟩ := Option.isSome_iff_exists.mp h
  obtain ⟨hlt, rfl⟩ := created_nodes_some hp
  exact mem_declaredNames.mpr ⟨_, List.getElem_mem hlt, rfl⟩

/-! ## The graph of a schema whose joins resolve -/

/-- The edges a link gives the node named `x`: one to the child when `x` is the parent, one
back to the parent when `x` is the child. -/
def linkEdges (ptr : String → Nat) (x : String) (l : Link) : List SchemaEdge :=
  (if l.parent = x then [⟨ptr l.child, if l.single then .oneToOne else .oneToMany⟩] else []) ++
    (if l.child = x then [⟨ptr l.parent, .belongsTo⟩] else [])

section Resolved

variable {tables : List Table} (hj : JoinsDeclared tables)
include hj

/-- When every join resolves, the edge pass adds the edges of the declared links and fails on
none. -/
theorem connected_eq :
    connected tables =
      ((declaredLinks tables).foldl (addLink (created tables).nodes) (created tables).heap,
        none) :=
  connect_eq_foldl none tables _ fun u hu j hj' => created_nodes_isSome (hj u hu j hj')

theorem newSchemaGraph_error_eq_none : (NewSchemaGraph tables).2 = none := by
  simp [NewSchemaGraph, connected_eq hj]

theorem table_newSchemaGraph (p : Nat) :
    ((NewSchemaGraph tables).1.node p).table = (deref (created tables).heap p).table := by
  simp [NewSchemaGraph, SchemaGraph.node, connected_eq hj, table_foldl_addLink]

/-- **Edges.** The node of a declared name has, in the order of `declaredLinks`, an edge to the
child of every link it is the parent of, and a belongs-to edge to the parent of every link it is
the child of. -/
theorem edges_newSchemaGraph {x : String} (hx : x ∈ declaredNames tables) :
    ((NewSchemaGraph tables).1.node (ptrOf (created tables).nodes x)).edges =
      (declaredLinks tables).flatMap (linkEdges (ptrOf (created tables).nodes) x) := by
  obtain ⟨-, -, -, -, hlt, -⟩ := ptrOf_created hx
  simp only [NewSchemaGraph, SchemaGraph.node, connected_eq hj, edges_foldl_addLink _ _ _ hlt,
    edges_deref_created, List.nil_append]
  refine List.flatMap_congr fun l hl => ?_
  obtain ⟨hp, hc⟩ := mem_declaredNames_of_mem_declaredLinks hj hl
  simp only [edgesOfJoin, linkEdges, forwardRel, ptrOf_inj hp hx, ptrOf_inj hc hx]

/-- A node has a belongs-to edge exactly when its name is the child of a link. -/
theorem exists_belongsTo_iff {x : String} (hx : x ∈ declaredNames tables) :
    (∃ e ∈ ((NewSchemaGraph tables).1.node (ptrOf (created tables).nodes x)).edges,
      e.rel = .belongsTo) ↔ ∃ l ∈ declaredLinks tables, l.child = x := by
  rw [edges_newSchemaGraph hj hx]
  simp only [List.mem_flatMap, linkEdges, List.mem_append]
  constructor
  · rintro ⟨e, ⟨l, hl, he⟩, hrel⟩
    refine ⟨l, hl, ?_⟩
    rcases he with he | he <;> split_ifs at he with h <;> simp_all
  · rintro ⟨l, hl, rfl⟩
    exact ⟨⟨ptrOf (created tables).nodes l.parent, .belongsTo⟩, ⟨l, hl, .inr (by simp)⟩, rfl⟩

/-- The node a declared name points at carries that name. -/
theorem name_newSchemaGraph {x : String} (hx : x ∈ declaredNames tables) :
    (NewSchemaGraph tables).1.name (ptrOf (created tables).nodes x) = x := by
  rw [SchemaGraph.name, nameOf, ← SchemaGraph.node, table_newSchemaGraph hj]
  exact nameOf_ptrOf hx

/-- The edges a link gives the node named `x`, each read as its target's name and its
relationship. -/
def linkNameEdges (x : String) (l : Link) : List (String × RelType) :=
  (if l.parent = x then [(l.child, if l.single then .oneToOne else .oneToMany)] else []) ++
    (if l.child = x then [(l.parent, .belongsTo)] else [])

/-- The edges of a declared name's node, read by target name. -/
theorem edges_byName {x : String} (hx : x ∈ declaredNames tables) :
    ((NewSchemaGraph tables).1.node (ptrOf (created tables).nodes x)).edges.map
        (fun e => ((NewSchemaGraph tables).1.name e.node, e.rel)) =
      (declaredLinks tables).flatMap (linkNameEdges x) := by
  rw [edges_newSchemaGraph hj hx, List.map_flatMap]
  refine List.flatMap_congr fun l hl => ?_
  obtain ⟨hp, hc⟩ := mem_declaredNames_of_mem_declaredLinks hj hl
  simp only [linkEdges, linkNameEdges, List.map_append]
  split_ifs <;> simp [name_newSchemaGraph hj, hp, hc]

/-- Two tables joined by a link, in either direction. -/
def LinkAdj (links : List Link) (x y : String) : Prop :=
  ∃ l ∈ links, (l.parent = x ∧ l.child = y) ∨ (l.child = x ∧ l.parent = y)

/-- Both ends of a link are declared. -/
theorem mem_declaredNames_of_linkAdj {x y : String} (h : LinkAdj (declaredLinks tables) x y) :
    y ∈ declaredNames tables := by
  obtain ⟨l, hl, ⟨-, rfl⟩ | ⟨-, rfl⟩⟩ := h
  · exact (mem_declaredNames_of_mem_declaredLinks hj hl).2
  · exact (mem_declaredNames_of_mem_declaredLinks hj hl).1

/-- **One edge.** The edges of a declared name's node lead exactly to the nodes of the names a
link joins it to. -/
theorem edge_newSchemaGraph_iff {x : String} (hx : x ∈ declaredNames tables) (q : Nat) :
    (NewSchemaGraph tables).1.Edge (ptrOf (created tables).nodes x) q ↔
      ∃ y, q = ptrOf (created tables).nodes y ∧ LinkAdj (declaredLinks tables) x y := by
  rw [SchemaGraph.Edge, edges_newSchemaGraph hj hx]
  simp only [List.mem_flatMap, linkEdges, List.mem_append]
  constructor
  · rintro ⟨e, ⟨l, hl, he⟩, rfl⟩
    simp only [List.mem_ite_nil_right, List.mem_singleton] at he
    rcases he with ⟨h, rfl⟩ | ⟨h, rfl⟩
    · exact ⟨l.child, rfl, l, hl, .inl ⟨h, rfl⟩⟩
    · exact ⟨l.parent, rfl, l, hl, .inr ⟨h, rfl⟩⟩
  · rintro ⟨y, rfl, l, hl, ⟨rfl, rfl⟩ | ⟨rfl, rfl⟩⟩
    · exact ⟨_, ⟨l, hl, .inl (by rw [if_pos rfl]; exact List.mem_singleton_self _)⟩, rfl⟩
    · exact ⟨_, ⟨l, hl, .inr (by rw [if_pos rfl]; exact List.mem_singleton_self _)⟩, rfl⟩

/-- **Reachability by names.** A node of the graph is reachable from the roots exactly when it is
the node of a declared name joined by links to a top-level table without joins. -/
theorem reachable_newSchemaGraph_iff (q : Nat) :
    (NewSchemaGraph tables).1.Reachable q ↔
      ∃ y ∈ declaredNames tables, q = ptrOf (created tables).nodes y ∧
        ∃ t ∈ tables, t.joins = [] ∧ Relation.ReflTransGen (LinkAdj (declaredLinks tables)) t.name y := by
  have hdecl : ∀ t ∈ tables, t.name ∈ declaredNames tables := fun t ht =>
    mem_declaredNames.mpr ⟨t, mem_declaredTables_of_mem ht, rfl⟩
  constructor
  · rintro ⟨r, hr, hpath⟩
    induction hpath with
    | refl =>
      obtain ⟨t, ht, rfl⟩ := List.mem_map.mp hr
      obtain ⟨ht, hjn⟩ := List.mem_filter.mp ht
      exact ⟨t.name, hdecl t ht, rfl, t, ht, by simpa using hjn, .refl⟩
    | tail _ hedge ih =>
      obtain ⟨y, hy, rfl, t, ht, hjn, hpath⟩ := ih
      obtain ⟨z, rfl, hadj⟩ := (edge_newSchemaGraph_iff hj hy _).mp hedge
      exact ⟨z, mem_declaredNames_of_linkAdj hj hadj, rfl, t, ht, hjn, hpath.tail hadj⟩
  · rintro ⟨y, -, rfl, t, ht, hjn, hpath⟩
    suffices ∀ b, Relation.ReflTransGen (LinkAdj (declaredLinks tables)) t.name b →
        b ∈ declaredNames tables ∧
          (NewSchemaGraph tables).1.Reachable (ptrOf (created tables).nodes b) from
      (this y hpath).2
    intro b hb
    induction hb with
    | refl =>
      exact ⟨hdecl t ht, _, List.mem_map_of_mem _ (List.mem_filter.mpr ⟨ht, by simp [hjn]⟩), .refl⟩
    | tail _ hadj ih =>
      obtain ⟨ha, r, hr, hpath'⟩ := ih
      exact ⟨mem_declaredNames_of_linkAdj hj hadj, r, hr,
        hpath'.tail ((edge_newSchemaGraph_iff hj ha _).mpr ⟨_, rfl, hadj⟩)⟩

theorem namesUnique_newSchemaGraph : (NewSchemaGraph tables).1.NamesUnique := by
  intro p q hp hq hname
  obtain ⟨y, hy, rfl, -⟩ := (reachable_newSchemaGraph_iff hj p).mp hp
  obtain ⟨z, hz, rfl, -⟩ := (reachable_newSchemaGraph_iff hj q).mp hq
  rw [name_newSchemaGraph hj hy, name_newSchemaGraph hj hz] at hname
  rw [hname]

/-- `Traverse` visits the names joined by links to a top-level table without joins. -/
theorem mem_names_order_iff (x : String) :
    x ∈ (NewSchemaGraph tables).1.order.map (NewSchemaGraph tables).1.name ↔
      x ∈ declaredNames tables ∧
        ∃ t ∈ tables, t.joins = [] ∧ Relation.ReflTransGen (LinkAdj (declaredLinks tables)) t.name x := by
  constructor
  · intro hx
    obtain ⟨q, hq, rfl⟩ := List.mem_map.mp hx
    obtain ⟨y, hy, rfl, hpath⟩ := (reachable_newSchemaGraph_iff hj q).mp
      ((NewSchemaGraph tables).1.reachable_of_mem_order hq)
    rw [name_newSchemaGraph hj hy]
    exact ⟨hy, hpath⟩
  · rintro ⟨hx, hpath⟩
    have hr := (reachable_newSchemaGraph_iff hj _).mpr ⟨x, hx, rfl, hpath⟩
    rw [← name_newSchemaGraph hj hx]
    exact List.mem_map_of_mem _
      ((NewSchemaGraph tables).1.mem_order_of_reachable (namesUnique_newSchemaGraph hj) hr)

/-- The targets of a declared name's edges, by name, are the tables its links join it to. -/
theorem targets_byName {x : String} (hx : x ∈ declaredNames tables) :
    ((NewSchemaGraph tables).1.node (ptrOf (created tables).nodes x)).edges.map
        (fun e => (NewSchemaGraph tables).1.name e.node) =
      (declaredLinks tables).flatMap (linkTargets x) := by
  have h := congrArg (List.map Prod.fst) (edges_byName hj hx)
  rw [List.map_map, List.map_flatMap] at h
  rw [← List.flatMap_congr fun l _ => (show (linkNameEdges x l).map Prod.fst = linkTargets x l by
    unfold linkNameEdges linkTargets; split_ifs <;> simp)]
  exact h

theorem nodup_targets_iff {x : String} (hx : x ∈ declaredNames tables) :
    (((NewSchemaGraph tables).1.node (ptrOf (created tables).nodes x)).edges.map (·.node)).Nodup ↔
      ((declaredLinks tables).flatMap (linkTargets x)).Nodup := by
  rw [← targets_byName hj hx, show ∀ l : List SchemaEdge,
    l.map (fun e => (NewSchemaGraph tables).1.name e.node) =
      (l.map (·.node)).map (NewSchemaGraph tables).1.name from fun l => by rw [List.map_map]; rfl]
  refine ⟨fun h => h.map_on ?_, List.Nodup.of_map _⟩
  simp only [List.mem_map]
  rintro _ ⟨e, he, rfl⟩ _ ⟨e', he', rfl⟩ hname
  rw [edges_newSchemaGraph hj hx, List.mem_flatMap] at he he'
  obtain ⟨l, hl, he⟩ := he
  obtain ⟨l', hl', he'⟩ := he'
  have hends := mem_declaredNames_of_mem_declaredLinks hj hl
  have hends' := mem_declaredNames_of_mem_declaredLinks hj hl'
  simp only [linkEdges, List.mem_append] at he he'
  rcases he with he | he <;> split_ifs at he <;> simp only [List.mem_singleton,
    List.not_mem_nil] at he <;> subst he <;>
  rcases he' with he' | he' <;> split_ifs at he' <;> simp only [List.mem_singleton,
    List.not_mem_nil] at he' <;> subst he' <;>
  simp only [name_newSchemaGraph hj, hends.1, hends.2, hends'.1, hends'.2] at hname <;>
  simp only [hname]

end Resolved

/-- **Duplicate edges.** When every join resolves, `NewSchemaGraph` succeeds, and no node has two
edges to one node exactly when no two links join the same two tables and no table belongs to
itself. -/
theorem newSchemaGraph_edges_distinct_iff (tables : List Table) (hj : JoinsDeclared tables) :
    (NewSchemaGraph tables).2 = none ∧
      ((∀ x ∈ declaredNames tables,
          (((NewSchemaGraph tables).1.node (ptrOf (NewSchemaGraph tables).1.nodeIndex x)).edges.map
            (·.node)).Nodup) ↔ LinksSimple (declaredLinks tables)) := by
  refine ⟨newSchemaGraph_error_eq_none hj, ?_⟩
  rw [← nodup_linkTargets_iff]
  refine ⟨fun h x => ?_, fun h x hx => (nodup_targets_iff hj hx).mpr (h x)⟩
  by_cases hx : x ∈ declaredNames tables
  · exact (nodup_targets_iff hj hx).mp (h x hx)
  · rw [List.flatMap_eq_nil_iff.mpr fun l hl => ?_]
    · exact List.nodup_nil
    · obtain ⟨hp, hc⟩ := mem_declaredNames_of_mem_declaredLinks hj hl
      unfold linkTargets
      split_ifs with h₁ h₂ <;> simp_all

/-- A table nested in `a` that also joins `a`. -/
def nestedJoinSchema : List Table :=
  [⟨"a", [], [⟨"b", [], [], [⟨"a", false⟩], false⟩], [], false⟩]

/-- Its two links join `a` and `b`, so some node has two edges to one node. -/
theorem newSchemaGraph_edges_distinct_nested_join :
    JoinsDeclared nestedJoinSchema ∧ ¬ LinksSimple (declaredLinks nestedJoinSchema) ∧
      (NewSchemaGraph nestedJoinSchema).2 = none ∧
      ¬ ∀ x ∈ declaredNames nestedJoinSchema, (((NewSchemaGraph nestedJoinSchema).1.node
        (ptrOf (NewSchemaGraph nestedJoinSchema).1.nodeIndex x)).edges.map (·.node)).Nodup :=
  have h := newSchemaGraph_edges_distinct_iff nestedJoinSchema (by decide)
  have hs : ¬ LinksSimple (declaredLinks nestedJoinSchema) := by decide
  ⟨by decide, hs, h.1, mt h.2.mp hs⟩

/-- `NewSchemaGraph` accepts it and gives `a` two edges to `b`. -/
theorem newSchemaGraph_duplicate_edges :
    (NewSchemaGraph nestedJoinSchema).2 = none ∧
      ((NewSchemaGraph nestedJoinSchema).1.node 0).edges = [⟨1, .oneToMany⟩, ⟨1, .oneToMany⟩] :=
  ⟨by decide, by decide⟩

/-- The error `NewSchemaGraph` returns is that of the edge pass, which fails exactly on a
top-level table joining an unknown table. -/
theorem newSchemaGraph_error_isSome_iff (tables : List Table) :
    ((NewSchemaGraph tables).2).isSome ↔
      ∃ t ∈ tables, ∃ j ∈ t.joins, j.table ∉ declaredNames tables := by
  have h := fun x => (nodeIndex_isSome_iff tables x).not
  simp only [Option.not_isSome_iff_eq_none] at h
  simp only [NewSchemaGraph, Option.isSome_map', connected, connectFrom_error_iff]
  exact exists_congr fun t => and_congr_right fun _ =>
    exists_congr fun j => and_congr_right fun _ => h j.table

/-- **Errors.** `NewSchemaGraph` fails when a top-level table joins an unknown table, and only
when some join names an unknown table; when every join at every depth names a declared table it
succeeds, whatever cycles the belongs-to relation has and whether names repeat, and its graph
has a node for every declared name and the two edges of every declared link. -/
theorem newSchemaGraph_error_cases (tables : List Table) :
    ((∃ t ∈ tables, ∃ j ∈ t.joins, j.table ∉ declaredNames tables) →
        ((NewSchemaGraph tables).2).isSome) ∧
      (((NewSchemaGraph tables).2).isSome →
        ∃ t ∈ declaredTables tables, ∃ j ∈ t.joins, j.table ∉ declaredNames tables) ∧
      (JoinsDeclared tables → (NewSchemaGraph tables).2 = none ∧
        (∀ x, ((NewSchemaGraph tables).1.nodeIndex x).isSome ↔ x ∈ declaredNames tables) ∧
        ∀ x ∈ declaredNames tables,
          ((NewSchemaGraph tables).1.node (ptrOf (NewSchemaGraph tables).1.nodeIndex x)).edges =
            (declaredLinks tables).flatMap (linkEdges (ptrOf (NewSchemaGraph tables).1.nodeIndex) x)) := by
  refine ⟨(newSchemaGraph_error_isSome_iff tables).mpr, fun h => ?_, fun hj =>
    ⟨newSchemaGraph_error_eq_none hj, nodeIndex_isSome_iff tables,
      fun x hx => edges_newSchemaGraph hj hx⟩⟩
  obtain ⟨t, ht, hj⟩ := (newSchemaGraph_error_isSome_iff tables).mp h
  exact ⟨t, mem_declaredTables_of_mem ht, hj⟩

/-- Scenario 6 of the spec: `a` joins `b` and `b` joins `a`. -/
def cyclicSchema : List Table :=
  [⟨"a", [], [], [⟨"b", false⟩], false⟩, ⟨"b", [], [], [⟨"a", false⟩], false⟩]

/-- Its belongs-to relation has a cycle, and `NewSchemaGraph` accepts it. -/
theorem newSchemaGraph_accepts_cycle :
    Relation.TransGen (BelongsTo cyclicSchema) "a" "a" ∧ (NewSchemaGraph cyclicSchema).2 = none :=
  ⟨.tail (.single ⟨⟨"b", "a", false⟩, by decide, rfl, rfl⟩) ⟨⟨"a", "b", false⟩, by decide, rfl, rfl⟩,
    by decide⟩

/-- Filtering the declared tables by a test that holds of a top-level table exactly when it has no
joins, and of no nested table, keeps the top-level tables without joins. -/
theorem filter_declaredTables {P : Table → Bool} :
    ∀ ts : List Table, (∀ t ∈ ts, P t = t.joins.isEmpty) →
      (∀ t ∈ ts, ∀ u ∈ declaredTables t.tables, P u = false) →
      (declaredTables ts).filter P = ts.filter fun t => t.joins.isEmpty
  | [], _, _ => rfl
  | t :: ts, htop, hnest => by
    have hn : (declaredTables t.tables).filter P = [] :=
      List.filter_eq_nil_iff.mpr fun u hu => by simp [hnest t (List.mem_cons_self _ _) u hu]
    rw [declaredTables_cons, List.filter_append, List.filter_cons, hn, List.filter_cons,
      htop t (List.mem_cons_self _ _),
      filter_declaredTables ts (fun u hu => htop u (List.mem_cons_of_mem _ hu))
        (fun u hu => hnest u (List.mem_cons_of_mem _ hu))]
    split <;> simp

section Distinct

variable {tables : List Table} (hd : NamesDistinct tables)
include hd

/-- A top-level table is the child of a link exactly when it has joins. -/
theorem exists_link_child_iff {t : Table} (ht : t ∈ tables) :
    (∃ l ∈ declaredLinks tables, l.child = t.name) ↔ t.joins ≠ [] := by
  constructor
  · rintro ⟨l, hl, hc⟩
    rcases child_of_mem_tablesLinks_none hl with ⟨u, hu, hname, hjoins⟩ | ⟨u, hu, hnest⟩
    · have htop := hd.sublist (map_name_sublist_declaredNames tables)
      rwa [← List.inj_on_of_nodup_map htop hu ht (hname.trans hc)]
    · exact absurd (hc ▸ hnest) (not_mem_nested_of_nodup hd ht hu)
  · intro hjoins
    obtain ⟨j, hj'⟩ := List.exists_mem_of_ne_nil _ hjoins
    exact ⟨_, joinLinks_subset_of_mem ht (List.mem_map_of_mem _ hj'), rfl⟩

/-- **Roots.** `Nodes` lists, in declaration order, exactly the nodes without a belongs-to edge. -/
theorem nodes_newSchemaGraph (hj : JoinsDeclared tables) :
    (NewSchemaGraph tables).1.nodes =
      ((declaredTables tables).filter fun t =>
          ((NewSchemaGraph tables).1.node (ptrOf (created tables).nodes t.name)).edges.all
            fun e => e.rel != .belongsTo).map
        fun t => ptrOf (created tables).nodes t.name := by
  have hP : ∀ t ∈ declaredTables tables,
      (((NewSchemaGraph tables).1.node (ptrOf (created tables).nodes t.name)).edges.all
        fun e => e.rel != .belongsTo) = true ↔ ¬ ∃ l ∈ declaredLinks tables, l.child = t.name :=
    fun t ht => by
      rw [← exists_belongsTo_iff hj (mem_declaredNames.mpr ⟨t, ht, rfl⟩)]
      simp
  show rootsOf _ tables = _
  rw [rootsOf, filter_declaredTables]
  · intro t ht
    have := hP t (mem_declaredTables_of_mem ht)
    rw [exists_link_child_iff hd ht] at this
    cases h : t.joins <;> simp_all
  · intro t ht u hu
    have hu' := declaredTables_subset_of_mem ht hu
    obtain ⟨l, hl, hc⟩ := exists_link_of_nested (p := t.name) (mem_declaredNames.mpr ⟨u, hu, rfl⟩)
    have := (hP u hu').not.mpr (not_not.mpr ⟨l, tablesLinks_subset_of_mem ht hl, hc⟩)
    simpa using this

end Distinct

/-- **`NewSchemaGraph`, on a schema with distinct names whose joins resolve.** The index maps
exactly the declared names, each to a node holding its table; `Nodes` lists, in declaration
order, exactly the nodes without a belongs-to edge; and the edges of every node are, link by
link, a forward edge (one-to-one when the link is single) from parent to child and a belongs-to
edge back. -/
theorem newSchemaGraph_shape (tables : List Table) (hd : NamesDistinct tables)
    (hj : JoinsDeclared tables) :
    let g := (NewSchemaGraph tables).1
    (∀ x, (g.nodeIndex x).isSome ↔ x ∈ declaredNames tables) ∧
    (∀ t ∈ declaredTables tables, ∃ p, g.nodeIndex t.name = some p ∧ (g.node p).table = t) ∧
    g.nodes = ((declaredTables tables).filter fun t =>
        (g.node (ptrOf g.nodeIndex t.name)).edges.all fun e => e.rel != .belongsTo).map
      (fun t => ptrOf g.nodeIndex t.name) ∧
    ∀ x ∈ declaredNames tables,
      (g.node (ptrOf g.nodeIndex x)).edges =
        (declaredLinks tables).flatMap (linkEdges (ptrOf g.nodeIndex) x) := by
  refine ⟨nodeIndex_isSome_iff tables, fun t ht => ?_, nodes_newSchemaGraph hd hj,
    fun x hx => edges_newSchemaGraph hj hx⟩
  obtain ⟨-, -, -, hp, -, -⟩ := ptrOf_created (mem_declaredNames.mpr ⟨t, ht, rfl⟩)
  exact ⟨_, hp, (table_newSchemaGraph hj _).trans (table_ptrOf hd ht)⟩

/-- `b` is nested in `a` as a single table, and `c` joins `a` as a list. -/
def singleNestedSchema : List Table :=
  [⟨"a", [], [⟨"b", [], [], [], true⟩], [], false⟩, ⟨"c", [], [], [⟨"a", false⟩], false⟩]

/-- `a` has a one-to-one edge to `b` and a one-to-many edge to `c`. -/
theorem newSchemaGraph_shape_single_nested :
    NamesDistinct singleNestedSchema ∧ JoinsDeclared singleNestedSchema ∧
      let g := (NewSchemaGraph singleNestedSchema).1
      (g.node (ptrOf g.nodeIndex "a")).edges =
        [⟨ptrOf g.nodeIndex "b", .oneToOne⟩, ⟨ptrOf g.nodeIndex "c", .oneToMany⟩] :=
  ⟨by decide, by decide,
    ((newSchemaGraph_shape singleNestedSchema (by decide) (by decide)).2.2.2 "a" (by decide)).trans
      (by decide)⟩

end Bubbly
