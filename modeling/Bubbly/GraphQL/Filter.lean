import Bubbly.GraphQL.Build
import Mathlib.Data.List.Dedup

/-!
# The members of a filter input object

`graphQLFilterType` writes, for each argument `a` and each of the six operators `op`, the member
`a ++ op`; its comment says that the map then has `numFields`, six times the number of
arguments, members.

* `mem_graphQLFilterType` — the members are exactly the names `a ++ op`;
* `length_graphQLFilterType_iff` — so there are `numFields` of them exactly when these names are
  pairwise distinct;
* `lookup_graphQLFilterType` — and then member `a ++ op` has the type of `a`, or a list of it for
  `_in` and `_not_in`.

The names need not be distinct: arguments `x` and `x_not` both write `x_not_in`, and the write
that `range` makes last is the one kept (`graphQLFilterType_clash`).
-/

namespace Bubbly

open GraphQL

/-- The operators, in the order `graphQLFilterType` writes them. -/
def filterOps : List String :=
  scalarFilters ++ listFilters

/-- The type `graphQLFilterType` gives to an operator's member for an argument. -/
def filterMemberType (a : ArgType) (op : String) : InputType :=
  if op ∈ listFilters then .list a.ref else a.ref

/-- The writes `graphQLFilterType` makes, in order. -/
def filterWrites (entries : List (Sigma fun _ : String => ArgType)) : List (String × InputType) :=
  entries.flatMap fun a => filterOps.map fun op => (a.1 ++ op, filterMemberType a.2 op)

theorem foldl_filterWrites (entries : List (Sigma fun _ : String => ArgType))
    (m : GoMap InputType) :
    entries.foldl (fun fields a =>
        listFilters.foldl (fun fields f => fields.insert (a.1 ++ f) (.list a.2.ref))
          (scalarFilters.foldl (fun fields f => fields.insert (a.1 ++ f) a.2.ref) fields)) m =
      (filterWrites entries).foldl (fun m w => m.insert w.1 w.2) m := by
  induction entries generalizing m with
  | nil => rfl
  | cons a as ih =>
    have hw : filterWrites (a :: as) =
        filterOps.map (fun op => (a.1 ++ op, filterMemberType a.2 op)) ++ filterWrites as := rfl
    rw [List.foldl_cons, ih, hw, List.foldl_append]
    rfl

theorem graphQLFilterType_fields (typeName : String) (args : FieldConfigArgument) :
    (graphQLFilterType typeName args).fields =
      (filterWrites args.entries).foldl (fun m w => m.insert w.1 w.2) ∅ :=
  foldl_filterWrites _ _

theorem map_fst_filterWrites (args : FieldConfigArgument) :
    (filterWrites args.entries).map Prod.fst = args.keys.flatMap fun a => filterOps.map (a ++ ·) := by
  simp [filterWrites, AList.keys, List.keys, List.map_flatMap, List.flatMap_map,
    Function.comp_def]

/-- The members of a filter input object are the names `a ++ op`. -/
theorem mem_graphQLFilterType (typeName : String) (args : FieldConfigArgument) (k : String) :
    k ∈ (graphQLFilterType typeName args).fields ↔ ∃ a ∈ args.keys, ∃ op ∈ filterOps, a ++ op = k := by
  rw [graphQLFilterType_fields, mem_foldl_insert, ← List.mem_map, map_fst_filterWrites]
  simp only [AList.not_mem_empty, or_false, List.mem_flatMap, List.mem_map]

theorem length_filterWrites (args : FieldConfigArgument) :
    (filterWrites args.entries).length = filterNumFields args := by
  rw [filterNumFields]
  induction args.entries with
  | nil => rfl
  | cons a as ih =>
    simp only [filterWrites, List.flatMap_cons, List.length_append, List.length_map] at ih ⊢
    rw [ih, List.length_cons]
    simp [filterOps, scalarFilters, listFilters]
    omega

/-- **Size of a filter input object.** It has `numFields` members exactly when the names
`a ++ op` are pairwise distinct. -/
theorem length_graphQLFilterType_iff (typeName : String) (args : FieldConfigArgument) :
    (graphQLFilterType typeName args).fields.entries.length = filterNumFields args ↔
      (args.keys.flatMap fun a => filterOps.map (a ++ ·)).Nodup := by
  have hlen : (args.keys.flatMap fun a => filterOps.map (a ++ ·)).length = filterNumFields args := by
    rw [← map_fst_filterWrites, List.length_map, length_filterWrites]
  set W := args.keys.flatMap fun a => filterOps.map (a ++ ·)
  have hmem : ∀ k, k ∈ (graphQLFilterType typeName args).fields.keys ↔ k ∈ W := fun k => by
    rw [← AList.mem_keys, mem_graphQLFilterType]
    simp [W, List.mem_flatMap]
  have hperm : (graphQLFilterType typeName args).fields.keys.Perm W.dedup :=
    (List.perm_ext_iff_of_nodup (AList.keys_nodup _) (List.nodup_dedup W)).mpr fun k => by
      rw [List.mem_dedup, hmem]
  have hkeys : (graphQLFilterType typeName args).fields.entries.length =
      (graphQLFilterType typeName args).fields.keys.length := (List.length_map _ _).symm
  rw [hkeys, hperm.length_eq, ← hlen]
  exact ⟨fun h => List.dedup_eq_self.mp ((List.dedup_sublist W).eq_of_length h),
    fun h => by rw [List.dedup_eq_self.mpr h]⟩

/-- With pairwise distinct names, member `a ++ op` has the type of `a`, or a list of it. -/
theorem lookup_graphQLFilterType (typeName : String) (args : FieldConfigArgument)
    (hn : (args.keys.flatMap fun a => filterOps.map (a ++ ·)).Nodup) {a : String} {v : ArgType}
    (ha : args.lookup a = some v) {op : String} (hop : op ∈ filterOps) :
    (graphQLFilterType typeName args).fields.lookup (a ++ op) = some (filterMemberType v op) := by
  have hw : (a ++ op, filterMemberType v op) ∈ filterWrites args.entries :=
    List.mem_flatMap.mpr ⟨⟨a, v⟩, AList.mem_lookup_iff.mp ha, List.mem_map.mpr ⟨op, hop, rfl⟩⟩
  have hnw : ((filterWrites args.entries).map Prod.fst).Nodup := by rwa [map_fst_filterWrites]
  have hf := find?_reverse_key_of_nodup Prod.fst hnw hw
  simp only at hf
  rw [graphQLFilterType_fields, lookup_foldl_insert, hf]
  rfl

/-- The arguments `addGraphFields` passes for a table with a Number field `x` and a String field
`name`. -/
def tableArgs : FieldConfigArgument :=
  (((∅ : FieldConfigArgument).insert "x" (.input (.scalar .int))).insert "name"
    (.input (.scalar .string))).insert tableIDField (.input (.scalar .string))

theorem lookup_graphQLFilterType_x_not_in :
    (tableArgs.keys.flatMap fun a => filterOps.map (a ++ ·)).Nodup ∧
      (graphQLFilterType "t" tableArgs).fields.lookup ("x" ++ "_not_in") =
        some (filterMemberType (.input (.scalar .int)) "_not_in") :=
  have hn : (tableArgs.keys.flatMap fun a => filterOps.map (a ++ ·)).Nodup := by decide
  ⟨hn, lookup_graphQLFilterType "t" tableArgs hn
    (show tableArgs.lookup "x" = some (.input (.scalar .int)) from rfl) (by decide)⟩

/-- The arguments `addGraphFields` passes for a table with a Number field `x` and a String field
`x_not`. -/
def clashArgs : FieldConfigArgument :=
  (((∅ : FieldConfigArgument).insert "x" (.input (.scalar .int))).insert "x_not"
    (.input (.scalar .string))).insert tableIDField (.input (.scalar .string))

/-- For these arguments the filter input object has 17 members, not the 18 its comment counts:
`x_not_in` is both the `_not_in` of `x` and the `_in` of `x_not`, and keeps the type of the
argument `range` visits last. -/
theorem graphQLFilterType_clash :
    (graphQLFilterType "t" clashArgs).fields.entries.length = 17 ∧
      filterNumFields clashArgs = 18 ∧
      (graphQLFilterType "t" clashArgs).fields.lookup "x_not_in" = some (.list (.scalar .int)) := by
  decide

end Bubbly
