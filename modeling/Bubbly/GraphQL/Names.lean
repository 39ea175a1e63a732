import Bubbly.GraphQL.Passes
import Bubbly.Graph.Build

/-!
# The names of the created types

The builder creates the query object, and uses the shared `Order` enum and `Map` scalar; for
each table it visits, named `t`, it creates the object type `t` and the input objects `t_filter`
and `t_order`.

**Theorem (`typeNames_nodup_iff`).** For every schema graph on which the builder runs to its end,
the names of these types are pairwise distinct exactly when no visited table is named `query`,
`Order` or `Map`, and no visited table's name is another visited table's name followed by
`_filter` or `_order`.

`typeNames_perm` reads the names off the schema: the `fields` map has one entry per visited
table (`schemaConfig_lookup`), and the entry's object and input objects are named after it.
What remains is about strings: a name followed by `_filter` is never a name followed by
`_order`, nor one of the three fixed names, which are too short.
-/

namespace Bubbly

open GraphQL

/-! ## Strings -/

theorem append_right_cancel {x y s : String} (h : x ++ s = y ++ s) : x = y :=
  String.ext (List.append_cancel_right (congrArg String.data h))

theorem append_filter_ne_append_order (x y : String) : x ++ "_filter" ≠ y ++ orderByType :=
  fun h => by
    have h' : (x.data ++ ['_']) ++ ['f', 'i', 'l', 't', 'e', 'r'] =
        y.data ++ ['_', 'o', 'r', 'd', 'e', 'r'] := by
      simpa using congrArg String.data h
    exact absurd (List.append_inj_right' h' rfl) (by decide)

theorem ne_append_of_length_lt {c y s : String} (h : c.length < s.length) : c ≠ y ++ s :=
  fun e => by rw [e, String.length_append] at h; omega

theorem ne_append_self {y s : String} (hs : s ≠ "") : y ≠ y ++ s := fun h => by
  have h' := congrArg String.length h
  rw [String.length_append] at h'
  have h0 : s.length = 0 := by omega
  exact hs (String.ext (List.eq_nil_of_length_eq_zero h0))

/-! ## The names of a schema's types -/

/-- The names of the types the builder creates for a table named `x`. -/
def tableTypeNames (x : String) : List String :=
  [x, x ++ "_filter", x ++ orderByType]

/-- The names of the created types are `query`, `Order`, `Map` and those of the visited
tables. -/
theorem typeNames_perm {g : SchemaGraph} {query : Object} {fields : GoMap GqlField}
    (hs : schemaConfig g = some (.ofConfig query fields)) :
    (GraphQLSchema.ofConfig query fields).typeNames.Perm
      ("query" :: "Order" :: "Map" :: (g.order.map g.name).flatMap tableTypeNames) := by
  obtain ⟨rfl, hentry, hnone⟩ := schemaConfig_lookup hs
  have hmem : ∀ k, k ∈ fields.keys ↔ k ∈ g.order.map g.name := fun k => by
    rw [← AList.mem_keys, ← AList.lookup_isSome]
    refine ⟨fun h => by_contra fun hk => by simp [hnone k hk] at h, fun h => ?_⟩
    obtain ⟨p, hp, rfl⟩ := List.mem_map.mp h
    obtain ⟨field, -, hf⟩ := hentry p hp
    simp [hf]
  have hkeys : fields.keys.Perm (g.order.map g.name) :=
    (List.perm_ext_iff_of_nodup (AList.keys_nodup _) g.nodup_names_order).mpr hmem
  have hF : ∀ e ∈ fields.entries, (e.2.type.name :: [filterID, orderByID].filterMap fun k =>
      (e.2.args.lookup k).bind ArgType.inputObjectName?) = tableTypeNames e.1 := by
    rintro ⟨k, field⟩ he
    have hk : fields.lookup k = some field := AList.mem_lookup_iff.mpr he
    obtain ⟨p, hp, rfl⟩ := List.mem_map.mp ((hmem k).mp (AList.mem_keys.mp
      (AList.lookup_isSome.mp (by simp [hk]))))
    obtain ⟨field₀, h₀, hf⟩ := hentry p hp
    obtain ⟨hname, -, -, -, -, hfilter, horder⟩ := tableGqlField_spec h₀
    rw [hk, Option.some.injEq] at hf
    subst hf
    simp [List.filterMap_cons, hfilter, horder, hname, tableTypeNames]
  simp only [GraphQLSchema.typeNames, queryObject, enumOrderBy, mapScalar, Scalar.name]
  refine .cons _ (.cons _ (.cons _ ?_))
  rw [List.flatMap_congr hF, ← List.flatMap_map Sigma.fst]
  exact hkeys.flatMap_right _

/-! ## Distinct names -/

theorem nodup_tableTypeNames (x : String) : (tableTypeNames x).Nodup := by
  simp only [tableTypeNames, List.nodup_cons, List.mem_cons, List.mem_singleton,
    List.not_mem_nil, or_false, not_or, List.nodup_nil, not_false_eq_true, and_true]
  exact ⟨⟨ne_append_self (by decide), ne_append_self (by decide)⟩,
    append_filter_ne_append_order x x⟩

/-- The names of two tables' types are disjoint exactly when neither name is the other's
followed by `_filter` or `_order`. -/
theorem disjoint_tableTypeNames_iff {x y : String} (hxy : x ≠ y) :
    (tableTypeNames x).Disjoint (tableTypeNames y) ↔
      (x ≠ y ++ "_filter" ∧ x ≠ y ++ orderByType) ∧ (y ≠ x ++ "_filter" ∧ y ≠ x ++ orderByType) := by
  have hf : x ++ "_filter" ≠ y ++ "_filter" := fun h => hxy (append_right_cancel h)
  have ho : x ++ orderByType ≠ y ++ orderByType := fun h => hxy (append_right_cancel h)
  have hfo := append_filter_ne_append_order
  simp only [List.Disjoint, tableTypeNames, List.mem_cons, List.mem_singleton, List.not_mem_nil,
    or_false]
  constructor
  · intro h
    exact ⟨⟨fun e => h (.inl rfl) (.inr (.inl e)), fun e => h (.inl rfl) (.inr (.inr e))⟩,
      fun e => h (.inr (.inl e)) (.inl rfl), fun e => h (.inr (.inr e)) (.inl rfl)⟩
  · rintro ⟨⟨h₁, h₂⟩, h₃, h₄⟩ a (rfl | rfl | rfl) (hb | hb | hb)
    all_goals first
      | exact hxy hb | exact h₁ hb | exact h₂ hb | exact h₃ hb.symm | exact hf hb
      | exact hfo x y hb | exact h₄ hb.symm | exact hfo y x hb.symm | exact ho hb

theorem fixed_mem_flatMap_iff {V : List String} {c : String} (hc : c.length < orderByType.length) :
    c ∈ V.flatMap tableTypeNames ↔ c ∈ V := by
  simp only [List.mem_flatMap, tableTypeNames, List.mem_cons, List.mem_singleton,
    List.not_mem_nil, or_false]
  constructor
  · rintro ⟨y, hy, rfl | h | h⟩
    · exact hy
    · exact absurd h (ne_append_of_length_lt (lt_trans hc (by decide)))
    · exact absurd h (ne_append_of_length_lt hc)
  · exact fun h => ⟨c, h, .inl rfl⟩

/-- The names are distinct exactly when no table is named like a fixed type, or like another
table's input object. -/
theorem nodup_typeNames_iff {V : List String} (hV : V.Nodup) :
    ("query" :: "Order" :: "Map" :: V.flatMap tableTypeNames).Nodup ↔
      ∀ x ∈ V, (x ≠ "query" ∧ x ≠ "Order" ∧ x ≠ "Map") ∧
        ∀ y ∈ V, x ≠ y ++ "_filter" ∧ x ≠ y ++ orderByType := by
  have hsym : Symmetric fun x y => (tableTypeNames x).Disjoint (tableTypeNames y) :=
    fun _ _ h _ ha hb => h hb ha
  have hpair : V.Pairwise (fun x y => (tableTypeNames x).Disjoint (tableTypeNames y)) ↔
      ∀ x ∈ V, ∀ y ∈ V, x ≠ y ++ "_filter" ∧ x ≠ y ++ orderByType := by
    constructor
    · intro h x hx y hy
      by_cases hxy : x = y
      · subst hxy
        exact ⟨ne_append_self (by decide), ne_append_self (by decide)⟩
      · exact ((disjoint_tableTypeNames_iff hxy).mp
          (h.forall hsym hx hy hxy)).1
    · intro h
      exact hV.pairwise_of_forall_ne fun x hx y hy hxy =>
        (disjoint_tableTypeNames_iff hxy).mpr ⟨h x hx y hy, h y hy x hx⟩
  rw [List.nodup_cons, List.nodup_cons, List.nodup_cons, List.nodup_flatMap, hpair]
  simp only [List.mem_cons, fixed_mem_flatMap_iff (by decide : "query".length < orderByType.length),
    fixed_mem_flatMap_iff (by decide : "Order".length < orderByType.length),
    fixed_mem_flatMap_iff (by decide : "Map".length < orderByType.length), not_or]
  constructor
  · rintro ⟨⟨-, -, h₁⟩, ⟨-, h₂⟩, h₃, -, h₄⟩ x hx
    exact ⟨⟨fun e => h₁ (e ▸ hx), fun e => h₂ (e ▸ hx), fun e => h₃ (e ▸ hx)⟩, h₄ x hx⟩
  · intro h
    exact ⟨⟨by decide, by decide, fun hm => (h _ hm).1.1 rfl⟩,
      ⟨by decide, fun hm => (h _ hm).1.2.1 rfl⟩, fun hm => (h _ hm).1.2.2 rfl,
      fun x _ => nodup_tableTypeNames x, fun x hx => (h x hx).2⟩

/-! ## The types of a schema -/

/-- **Distinct type names.** For every schema graph on which the builder runs to its end, the
types it creates have pairwise distinct names exactly when no visited table is named `query`,
`Order` or `Map`, and no visited table's name is another's followed by `_filter` or `_order`. -/
theorem typeNames_nodup_iff (g : SchemaGraph) (s : GraphQLSchema)
    (hs : schemaConfig g = some s) :
    s.typeNames.Nodup ↔ ∀ x ∈ g.order.map g.name, (x ≠ "query" ∧ x ≠ "Order" ∧ x ≠ "Map") ∧
      ∀ y ∈ g.order.map g.name, x ≠ y ++ "_filter" ∧ x ≠ y ++ "_order" := by
  cases s with
  | empty => simp [GraphQLSchema.typeNames, order_eq_nil_of_empty hs]
  | ofConfig query fields =>
    exact (typeNames_perm hs).nodup_iff.trans (nodup_typeNames_iff g.nodup_names_order)

/-- The schema the builder makes for the zoo. -/
def zooGraphQLSchema : GraphQLSchema :=
  (schemaConfig (NewSchemaGraph zooSchema).1).getD .empty

theorem typeNames_nodup_zoo :
    schemaConfig (NewSchemaGraph zooSchema).1 = some zooGraphQLSchema ∧
      zooGraphQLSchema.typeNames.Nodup :=
  ⟨rfl, (typeNames_nodup_iff (NewSchemaGraph zooSchema).1 zooGraphQLSchema rfl).mpr (by decide)⟩

/-- Two tables, the second named like the first's order input object. -/
def purchaseSchema : List Table :=
  [bareTable "purchase", bareTable "purchase_order"]

/-- Their names are distinct, but the builder creates two types named `purchase_order`: the
object of the second table and the order input object of the first. -/
theorem typeNames_purchase_order :
    NamesDistinct purchaseSchema ∧
      (schemaConfig (NewSchemaGraph purchaseSchema).1).map
        (fun s => s.typeNames.count "purchase_order") = some 2 := by
  decide

end Bubbly
