import Bubbly.GraphQL.Accepted
import Bubbly.Graph.Shape
import Mathlib.Data.Fintype.Card

/-!
# Every declared table reaches the GraphQL schema

**Theorem (`newSchemaGraph_covers`).** For a schema whose names are distinct, whose joins all
resolve and whose belongs-to relation has no cycle, `NewSchemaGraph` succeeds, every node of its
index is reachable from a root, and `Traverse` visits every declared table exactly once. When,
moreover, no field is a List, every name is one `graphql-go` accepts (`NamesValid`) and no table
is named like another type (`TypeNamesFree`), `newGraphQLSchema` returns without error a schema
with an object type, an argument set and a query field for every declared table. Without the
last two conditions `NewSchema` can fail: tables `purchase` and `purchase_order` give two types
named `purchase_order`.

**Theorem (`newSchemaGraph_table_fields`).** On such a schema, the object type and the argument
set of a table with distinct field names have, for each declared field, a field and an equality
argument of the scalar the spec gives its type (`specFieldScalar`), unless a name the builder sets
later takes it: `_id` or the name of a table linked to it for the object, `_id`, `filter`,
`order_by`, `filter_on`, `first` or `last` for the arguments.

**Proof.** Following belongs-to links upwards from a table ends at a root, a top-level table
without joins, because the relation is well founded on the finitely many declared names
(`exists_root_path`). So every declared name is joined by links to a root and is visited
(`mem_names_order_iff`); the visited names are distinct, so the visit order is a permutation of
the declared tables (`tables_order_perm`), the config holds each of them (`schemaConfig_table`),
and `NewSchema` accepts it (`newGraphQLSchema_ok`).
-/

namespace Bubbly

open GraphQL

/-! ## Roots above every table -/

theorem mem_declaredNames_cases {x : String} {ts : List Table} (hx : x ∈ declaredNames ts) :
    (∃ t ∈ ts, t.name = x) ∨ ∃ t ∈ ts, x ∈ declaredNames t.tables := by
  induction ts with
  | nil => simp at hx
  | cons t ts ih =>
    simp only [declaredNames_cons, List.mem_cons, List.mem_append] at hx
    rcases hx with (rfl | hx) | hx
    · exact .inl ⟨t, List.mem_cons_self _ _, rfl⟩
    · exact .inr ⟨t, List.mem_cons_self _ _, hx⟩
    · rcases ih hx with ⟨u, hu, h⟩ | ⟨u, hu, h⟩
      · exact .inl ⟨u, List.mem_cons_of_mem _ hu, h⟩
      · exact .inr ⟨u, List.mem_cons_of_mem _ hu, h⟩

/-- A ranking of the names that drops from child to parent along every link rules out a
belongs-to cycle. -/
theorem acyclic_of_rank {tables : List Table} (rank : String → Nat)
    (h : ∀ l ∈ declaredLinks tables, rank l.parent < rank l.child) : Acyclic tables := by
  have hlt : ∀ x y, Relation.TransGen (BelongsTo tables) x y → rank y < rank x := by
    intro x y hxy
    induction hxy with
    | single hb => obtain ⟨l, hl, rfl, rfl⟩ := hb; exact h l hl
    | tail _ hb ih => obtain ⟨l, hl, rfl, rfl⟩ := hb; exact lt_trans (h l hl) ih
  exact fun x hx => lt_irrefl _ (hlt x x hx)

/-- Running `foldlM` with a visitor that never fails is `foldl`. -/
theorem foldlM_ok {σ : Type} (visit : σ → Nat → σ) (l : List Nat) (s : σ) :
    l.foldlM (m := Except String) (fun s p => .ok (visit s p)) s = .ok (l.foldl visit s) := by
  induction l generalizing s with
  | nil => rfl
  | cons p l ih => exact ih _

section Cover

variable {tables : List Table} (hd : NamesDistinct tables) (hj : JoinsDeclared tables)
  (ha : Acyclic tables)

include hd hj ha in
/-- **Roots above every table.** Every declared table is joined by links to a top-level table
without joins. -/
theorem exists_root_path {x : String} (hx : x ∈ declaredNames tables) :
    ∃ t ∈ tables, t.joins = [] ∧
      Relation.ReflTransGen (LinkAdj (declaredLinks tables)) t.name x := by
  let r : {x // x ∈ declaredNames tables} → {x // x ∈ declaredNames tables} → Prop :=
    fun a b => Relation.TransGen (BelongsTo tables) b.1 a.1
  haveI : IsTrans _ r := ⟨fun _ _ _ hab hbc => hbc.trans hab⟩
  haveI : IsIrrefl _ r := ⟨fun a h => ha a.1 h⟩
  refine (Finite.wellFounded_of_trans_of_irrefl r).induction (C := fun a => ∃ t ∈ tables,
    t.joins = [] ∧ Relation.ReflTransGen (LinkAdj (declaredLinks tables)) t.name a.1) ⟨x, hx⟩ ?_
  rintro ⟨x, hx⟩ ih
  by_cases hl : ∃ l ∈ declaredLinks tables, l.child = x
  · obtain ⟨l, hl, rfl⟩ := hl
    obtain ⟨t, ht, hjn, hpath⟩ :=
      ih ⟨l.parent, (mem_declaredNames_of_mem_declaredLinks hj hl).1⟩ (.single ⟨l, hl, rfl, rfl⟩)
    exact ⟨t, ht, hjn, hpath.tail ⟨l, hl, .inl ⟨rfl, rfl⟩⟩⟩
  · rcases mem_declaredNames_cases hx with ⟨t, ht, rfl⟩ | ⟨u, hu, hn⟩
    · exact ⟨t, ht, not_not.mp fun hjn => hl ((exists_link_child_iff hd ht).mpr hjn), .refl⟩
    · obtain ⟨l, hl', hc⟩ := exists_link_of_nested (p := u.name) hn
      exact absurd ⟨l, tablesLinks_subset_of_mem hu hl', hc⟩ hl

include hj in
/-- A visited node is the node of its name, and that name is declared. -/
theorem ptrOf_name_of_mem_order {p : Nat} (hp : p ∈ (NewSchemaGraph tables).1.order) :
    (NewSchemaGraph tables).1.name p ∈ declaredNames tables ∧
      p = ptrOf (created tables).nodes ((NewSchemaGraph tables).1.name p) := by
  obtain ⟨y, hy, rfl, -⟩ := (reachable_newSchemaGraph_iff hj p).mp
    ((NewSchemaGraph tables).1.reachable_of_mem_order hp)
  rw [name_newSchemaGraph hj hy]
  exact ⟨hy, rfl⟩

include hd hj in
theorem table_node_ptrOf {t : Table} (ht : t ∈ declaredTables tables) :
    ((NewSchemaGraph tables).1.node (ptrOf (created tables).nodes t.name)).table = t :=
  (table_newSchemaGraph hj _).trans (table_ptrOf hd ht)

include hd hj ha in
/-- `Traverse` visits every declared name, each once. -/
theorem names_order_perm :
    ((NewSchemaGraph tables).1.order.map (NewSchemaGraph tables).1.name).Perm
      (declaredNames tables) :=
  (List.perm_ext_iff_of_nodup (NewSchemaGraph tables).1.nodup_names_order hd).mpr fun x => by
    rw [mem_names_order_iff hj]
    exact ⟨And.left, fun hx => ⟨hx, exists_root_path hd hj ha hx⟩⟩

include hd hj ha in
/-- Every declared table is the table of the visited node of its name. -/
theorem exists_mem_order {t : Table} (ht : t ∈ declaredTables tables) :
    ∃ p ∈ (NewSchemaGraph tables).1.order, (NewSchemaGraph tables).1.name p = t.name ∧
      p = ptrOf (created tables).nodes t.name ∧ ((NewSchemaGraph tables).1.node p).table = t := by
  obtain ⟨p, hp, hname⟩ := List.mem_map.mp ((names_order_perm hd hj ha).mem_iff.mpr
    (mem_declaredNames.mpr ⟨t, ht, rfl⟩))
  have hpt : p = ptrOf (created tables).nodes t.name := hname ▸ (ptrOf_name_of_mem_order hj hp).2
  refine ⟨p, hp, hname, hpt, ?_⟩
  rw [hpt, table_node_ptrOf hd hj ht]

include hd hj ha in
/-- `Traverse` visits every declared table, each once. -/
theorem tables_order_perm :
    ((NewSchemaGraph tables).1.order.map fun p => ((NewSchemaGraph tables).1.node p).table).Perm
      (declaredTables tables) := by
  have hnodup : (declaredTables tables).Nodup := List.Nodup.of_map _ hd
  have hmap : ((NewSchemaGraph tables).1.order.map fun p =>
      ((NewSchemaGraph tables).1.node p).table).map (·.name) =
        (NewSchemaGraph tables).1.order.map (NewSchemaGraph tables).1.name := by
    rw [List.map_map]; rfl
  refine (List.perm_ext_iff_of_nodup (List.Nodup.of_map (·.name)
    (hmap ▸ (NewSchemaGraph tables).1.nodup_names_order)) hnodup).mpr fun t => ?_
  constructor
  · rintro hmem
    obtain ⟨p, hp, rfl⟩ := List.mem_map.mp hmem
    obtain ⟨hy, hpy⟩ := ptrOf_name_of_mem_order hj hp
    obtain ⟨u, hu, -, -, -, hu'⟩ := ptrOf_created hy
    rw [hpy, table_newSchemaGraph hj, hu']
    exact hu
  · intro ht
    obtain ⟨p, hp, -, -, htab⟩ := exists_mem_order hd hj ha ht
    exact List.mem_map.mpr ⟨p, hp, htab⟩

end Cover

/-- Every table and every field has a name `graphql-go` accepts. -/
def NamesValid (tables : List Table) : Prop :=
  ∀ t ∈ declaredTables tables, validName t.name ∧ ∀ f ∈ t.fields, validName f.name

/-- No table is named like the query object or a shared type, or like another table's filter or
order input object. -/
def TypeNamesFree (tables : List Table) : Prop :=
  ∀ x ∈ declaredNames tables, x ∉ reservedTypeNames ∧
    ∀ y ∈ declaredNames tables, x ≠ y ++ "_filter" ∧ x ≠ y ++ orderByType

instance (tables : List Table) : Decidable (NamesValid tables) :=
  inferInstanceAs (Decidable (∀ t ∈ declaredTables tables, _))

instance (tables : List Table) : Decidable (TypeNamesFree tables) :=
  inferInstanceAs (Decidable (∀ x ∈ declaredNames tables, _))

/-- **Coverage.** For a schema whose names are distinct, whose joins resolve and whose belongs-to
relation has no cycle: `NewSchemaGraph` succeeds; every node of its index is reachable from a
root; `Traverse` visits every declared table exactly once, and with a visitor that never fails
returns the visitor folded over those visits; and when no field is a List, every name is valid
and no table's name is taken by another type, `newGraphQLSchema` returns without error a schema
with, for every declared table, an object type of its name, an argument set, and a query field
of a list of that object taking those arguments. -/
theorem newSchemaGraph_covers (tables : List Table) (hd : NamesDistinct tables)
    (hj : JoinsDeclared tables) (ha : Acyclic tables) :
    let g := (NewSchemaGraph tables).1
    (NewSchemaGraph tables).2 = none ∧
    (∀ x p, g.nodeIndex x = some p → g.Reachable p) ∧
    (g.order.map fun p => (g.node p).table).Perm (declaredTables tables) ∧
    (∀ {σ : Type} (visit : σ → Nat → σ) (s : σ),
      g.traverse (fun s p => .ok (visit s p)) s = some (.ok (g.order.foldl visit s))) ∧
    ((∀ t ∈ declaredTables tables, ∀ f ∈ t.fields, f.type ≠ .list) → NamesValid tables →
      TypeNamesFree tables →
      ∃ s, newGraphQLSchema g = some (.ok s) ∧ ∀ t ∈ declaredTables tables, ∃ o args,
        s.object? t.name = some o ∧ o.name = t.name ∧ s.args? t.name = some args ∧
        s.queryField? t.name = some ⟨.list (.object t.name), args⟩) := by
  intro g
  have hvisited : ∀ p ∈ g.order, (g.node p).table ∈ declaredTables tables := fun p hp =>
    (tables_order_perm hd hj ha).mem_iff.mp (List.mem_map_of_mem _ hp)
  refine ⟨newSchemaGraph_error_eq_none hj, fun x p hxp => ?_, tables_order_perm hd hj ha,
    fun visit s => ?_, fun hl hv hfree => ?_⟩
  · have hxp' : (created tables).nodes x = some p := by simpa [g] using hxp
    have hx : x ∈ declaredNames tables := (nodeIndex_isSome_iff tables x).mp (by simp [hxp'])
    refine (reachable_newSchemaGraph_iff hj p).mpr ⟨x, hx, ?_, exists_root_path hd hj ha hx⟩
    simp [ptrOf, hxp']
  · rw [SchemaGraph.traverse_eq, foldlM_ok]
    rfl
  · have hdecl : ∀ x ∈ g.order.map g.name, x ∈ declaredNames tables := fun x hx =>
      (names_order_perm hd hj ha).mem_iff.mp hx
    obtain ⟨s, hs, hok⟩ := newGraphQLSchema_ok (fun p hp => hl _ (hvisited p hp))
      (fun p hp => hv _ (hvisited p hp))
      (fun x hx => ⟨(hfree x (hdecl x hx)).1, fun y hy => (hfree x (hdecl x hx)).2 y (hdecl y hy)⟩)
    refine ⟨s, hok, fun t ht => ?_⟩
    obtain ⟨p, hp, hname, -⟩ := exists_mem_order hd hj ha ht
    obtain ⟨field, o, -, ho, hon, -, hargs, hq⟩ := schemaConfig_table hs hp
    rw [hname] at ho hon hargs hq
    exact ⟨o, field.args, ho, hon, hargs, hq (hv t ht).1⟩

theorem newSchemaGraph_covers_zoo :
    NamesDistinct zooSchema ∧ JoinsDeclared zooSchema ∧ Acyclic zooSchema ∧
      ∃ s, newGraphQLSchema (NewSchemaGraph zooSchema).1 = some (.ok s) ∧
        (s.args? "zoo").isSome :=
  have ha : Acyclic zooSchema := acyclic_of_rank (fun x => if x = "zoo" then 0 else 1) (by decide)
  have ⟨s, hs, hcov⟩ := (newSchemaGraph_covers zooSchema (by decide) (by decide) ha).2.2.2.2
    (by decide) (by decide) (by decide)
  have ⟨_, _, _, _, hargs, _⟩ := hcov zooTable (mem_declaredTables_of_mem (List.mem_singleton_self _))
  ⟨by decide, by decide, ha, s, hs, by rw [show "zoo" = zooTable.name from rfl, hargs]; rfl⟩

/-- A table with a List field. -/
def listFieldSchema : List Table :=
  [⟨"t", [⟨"tags", .list⟩], [], [], false⟩]

/-- Both meet every condition on the schema. On the first, `graphQLFieldType` panics on its List
field; on the second, whose two tables are named `purchase` and `purchase_order`, `NewSchema`
meets two types named `purchase_order` and returns an error. -/
theorem newGraphQLSchema_panics_or_fails :
    (NamesDistinct listFieldSchema ∧ JoinsDeclared listFieldSchema ∧ Acyclic listFieldSchema ∧
      newGraphQLSchema (NewSchemaGraph listFieldSchema).1 = none) ∧
    (NamesDistinct purchaseSchema ∧ JoinsDeclared purchaseSchema ∧ Acyclic purchaseSchema ∧
      newGraphQLSchema (NewSchemaGraph purchaseSchema).1 =
        some (.error (duplicateTypeMsg "purchase_order"))) :=
  ⟨⟨by decide, by decide, acyclic_of_rank (fun _ => 0) (by decide), rfl⟩,
    ⟨by decide, by decide, acyclic_of_rank (fun _ => 0) (by decide), rfl⟩⟩

end Bubbly
