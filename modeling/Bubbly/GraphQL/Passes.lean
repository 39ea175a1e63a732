import Bubbly.GraphQL.Build

/-!
# What the two passes store

For every schema graph, the schema `schemaConfig` returns is read off `Traverse`'s visit
order (`schemaConfig_lookup`): the `fields` map holds an entry exactly for each visited table
name, and the entry of a visited node is the `gqlField` `addGraphFields` builds for its table,
with the fields of the node's edges added by `addGraphEdges` (`withEdges`).

**Proof.** Every loop of the builder is a fold in which each turn may panic and otherwise writes
one key. `foldlM_map_isSome` says when such a loop runs to its end, and `lookup_foldlM_map` what
each key then holds: the value of the last turn that wrote it. The edges pass writes only object
types, never argument sets (`ArgsAgree`), and the field of an edge reads only argument sets;
so each node's edges can be added against the final map, and, names being visited once, no node's
entry is written by another's turn.
-/

namespace Bubbly

open GraphQL

/-! ## Loops that may panic -/

/-- A loop whose every turn may panic runs to its end exactly when no turn panics. -/
theorem foldlM_map_isSome {α β V : Type} (val : α → Option V) (upd : β → α → V → β)
    (l : List α) (b : β) :
    (l.foldlM (fun b x => (val x).map (upd b x)) b).isSome ↔ ∀ x ∈ l, (val x).isSome := by
  induction l generalizing b with
  | nil => simp
  | cons x l ih =>
    rw [List.foldlM_cons]
    cases hv : val x <;> simp [hv, ih]

/-- In such a loop that writes a map, each key holds the value of the last turn that wrote it,
or the map's own. -/
theorem lookup_foldlM_map {α β V W : Type} (val : α → Option V) (upd : β → α → V → β)
    (proj : β → GoMap W) (key : α → String) (out : α → V → W)
    (hupd : ∀ b x v, proj (upd b x v) = (proj b).insert (key x) (out x v))
    {l : List α} {b r : β} (h : l.foldlM (fun b x => (val x).map (upd b x)) b = some r)
    (k : String) :
    (proj r).lookup k = (l.reverse.find? fun x => key x = k).elim ((proj b).lookup k)
      fun x => (val x).map (out x) := by
  induction l generalizing b with
  | nil =>
    simp only [List.foldlM_nil, pure, Option.some.injEq] at h
    simp [h]
  | cons x l ih =>
    rw [List.foldlM_cons] at h
    cases hv : val x with
    | none => simp [hv] at h
    | some v =>
      simp only [hv, Option.map_some', Option.bind_eq_bind, Option.some_bind] at h
      rw [ih h, hupd, List.reverse_cons, List.find?_append]
      by_cases hk : key x = k
      · subst hk
        cases List.find? (fun y => decide (key y = key x)) l.reverse <;>
          simp [hv, AList.lookup_insert]
      · simp [hk, AList.lookup_insert_ne (Ne.symm hk)]

/-! ## A table's fields and arguments -/

theorem graphQLFieldType_isSome (f : TableField) :
    (graphQLFieldType f).isSome ↔ f.type ≠ .list := by
  unfold graphQLFieldType; split <;> simp_all

/-- The argument names `addGraphFields` sets after the fields' own. -/
def reservedArgs : List String :=
  [tableIDField, filterID, orderByID, filterOnID, firstID, lastID]

/-- The field of the object, and the argument, that the last declared field of a name gives. -/
def declaredField (t : Table) (k : String) : Option Scalar :=
  (t.fields.reverse.find? fun f => f.name = k).bind graphQLFieldType

theorem tableGqlField_isSome (t : Table) :
    (tableGqlField t).isSome ↔ ∀ f ∈ t.fields, f.type ≠ .list := by
  rw [← forall₂_congr fun f _ => graphQLFieldType_isSome f, ← foldlM_map_isSome graphQLFieldType
    (fun (acc : GoMap Field × FieldConfigArgument) f ft =>
      (acc.1.insert f.name ⟨.scalar ft, ∅⟩, acc.2.insert f.name (.input (.scalar ft))))
    t.fields (∅, ∅)]
  show _ ↔ (t.fields.foldlM addFieldArg (∅, ∅)).isSome
  unfold tableGqlField
  cases t.fields.foldlM addFieldArg (∅, ∅) <;> rfl

/-- **A table's `gqlField`.** An object named after the table, with `_id` of type String and,
under any other name, the field of the last declared field of that name; arguments with `_id`
of type String, under any name `addGraphFields` does not reserve the argument of the last
declared field of that name, and under `filter` and `order_by` the input objects named after
the table with `_filter` and `_order`. -/
theorem tableGqlField_spec {t : Table} {field : GqlField} (h : tableGqlField t = some field) :
    field.type.name = t.name ∧
    field.type.fields.lookup tableIDField = some ⟨.scalar .string, ∅⟩ ∧
    (∀ k ≠ tableIDField, field.type.fields.lookup k = (declaredField t k).map (⟨.scalar ·, ∅⟩)) ∧
    field.args.lookup tableIDField = some (.input (.scalar .string)) ∧
    (∀ k ∉ reservedArgs, field.args.lookup k = (declaredField t k).map (.input ∘ .scalar)) ∧
    (field.args.lookup filterID).bind ArgType.inputObjectName? = some (t.name ++ "_filter") ∧
    (field.args.lookup orderByID).bind ArgType.inputObjectName? = some (t.name ++ orderByType) := by
  rcases hr : t.fields.foldlM addFieldArg (∅, ∅) with _ | ⟨typeFields, args⟩
  · simp [tableGqlField, hr] at h
  simp only [tableGqlField, hr, Option.bind_eq_bind, Option.some_bind, pure,
    Option.some.injEq] at h
  subst h
  have h₁ := lookup_foldlM_map graphQLFieldType
    (fun (acc : GoMap Field × FieldConfigArgument) f ft =>
      (acc.1.insert f.name ⟨.scalar ft, ∅⟩, acc.2.insert f.name (.input (.scalar ft))))
    Prod.fst (·.name) (fun _ ft => (⟨.scalar ft, ∅⟩ : Field)) (fun _ _ _ => rfl) hr
  have h₂ := lookup_foldlM_map graphQLFieldType
    (fun (acc : GoMap Field × FieldConfigArgument) f ft =>
      (acc.1.insert f.name ⟨.scalar ft, ∅⟩, acc.2.insert f.name (.input (.scalar ft))))
    Prod.snd (·.name) (fun _ ft => ArgType.input (.scalar ft)) (fun _ _ _ => rfl) hr
  simp only [AList.lookup_empty, Option.or_none] at h₁ h₂
  refine ⟨rfl, AList.lookup_insert _, fun k hk => ?_, by simp [AList.lookup_insert_ne,
    reservedArgs, tableIDField, filterID, orderByID, filterOnID, firstID, lastID,
    AList.lookup_insert], fun k hk => ?_, by simp [AList.lookup_insert_ne, filterID, orderByID,
    filterOnID, firstID, lastID, AList.lookup_insert, ArgType.inputObjectName?, graphQLFilterType],
    by simp [AList.lookup_insert_ne, orderByID, filterOnID, firstID, lastID,
      AList.lookup_insert, ArgType.inputObjectName?, graphQLOrderType]⟩
  · rw [AList.lookup_insert_ne hk, h₁, declaredField]
    cases t.fields.reverse.find? fun f => f.name = k <;> rfl
  · simp only [reservedArgs, List.mem_cons, List.not_mem_nil, or_false, not_or] at hk
    obtain ⟨h₀, h₃, h₄, h₅, h₆, h₇⟩ := hk
    simp only [AList.lookup_insert_ne h₇, AList.lookup_insert_ne h₆, AList.lookup_insert_ne h₅,
      AList.lookup_insert_ne h₄, AList.lookup_insert_ne h₃, AList.lookup_insert_ne h₀, h₂,
      declaredField]
    cases t.fields.reverse.find? fun f => f.name = k <;> rfl

/-! ## The first pass -/

section Passes

variable {g : SchemaGraph}

theorem fieldsPass_isSome :
    (fieldsPass g).isSome ↔ ∀ p ∈ g.order, (tableGqlField (g.node p).table).isSome := by
  unfold fieldsPass addGraphFields
  exact foldlM_map_isSome (fun p => tableGqlField (g.node p).table)
    (fun (fields : GoMap GqlField) p field => fields.insert (g.node p).table.name field) g.order ∅

theorem lookup_fieldsPass {fields : GoMap GqlField} (h : fieldsPass g = some fields) (k : String) :
    fields.lookup k =
      (g.order.reverse.find? fun p => g.name p = k).bind fun p => tableGqlField (g.node p).table := by
  unfold fieldsPass addGraphFields at h
  refine (lookup_foldlM_map (fun p => tableGqlField (g.node p).table)
    (fun (fields : GoMap GqlField) p field => fields.insert (g.node p).table.name field) id g.name
    (fun _ v => v) (fun _ _ _ => rfl) h k).trans ?_
  cases g.order.reverse.find? fun p => g.name p = k <;> simp

/-- After the first pass, the name of each visited node holds its table's `gqlField`. -/
theorem lookup_fieldsPass_of_mem {fields : GoMap GqlField} (h : fieldsPass g = some fields)
    {p : Nat} (hp : p ∈ g.order) : fields.lookup (g.name p) = tableGqlField (g.node p).table := by
  rw [lookup_fieldsPass h, find?_reverse_key_of_nodup g.name g.nodup_names_order hp]
  rfl

theorem fieldsPass_covers {fields : GoMap GqlField} (h : fieldsPass g = some fields) :
    ∀ p ∈ g.order, (fields.lookup (g.name p)).isSome := fun p hp => by
  rw [lookup_fieldsPass_of_mem h hp]
  exact fieldsPass_isSome.mp (by simp [h]) p hp

/-! ## The second pass -/

/-- Two maps of `gqlField`s hold the same argument sets. -/
def ArgsAgree (F G : GoMap GqlField) : Prop :=
  ∀ k, (F.lookup k).map (·.args) = (G.lookup k).map (·.args)

theorem edgeField_congr (heap : List SchemaNode) {F G : GoMap GqlField} (h : ArgsAgree F G)
    (e : SchemaEdge) : edgeField heap F e = edgeField heap G e := by
  simp [edgeField, argsOf, h (nameOf heap e.node)]

/-- An object with the fields of some edges added. -/
def addEdgeFields (heap : List SchemaNode) (fields : GoMap GqlField) (es : List SchemaEdge)
    (o : Object) : Object :=
  es.foldl (fun o e => o.addFieldConfig (nameOf heap e.node) (edgeField heap fields e)) o

/-- A node's `gqlField` with the fields of the node's edges added. -/
def withEdges (heap : List SchemaNode) (fields : GoMap GqlField) (n : SchemaNode)
    (field : GqlField) : GqlField :=
  { field with type := addEdgeFields heap fields n.edges field.type }

@[simp] theorem args_withEdges (heap : List SchemaNode) (fields : GoMap GqlField)
    (n : SchemaNode) (field : GqlField) : (withEdges heap fields n field).args = field.args :=
  rfl

@[simp] theorem name_withEdges (heap : List SchemaNode) (fields : GoMap GqlField)
    (n : SchemaNode) (field : GqlField) :
    (withEdges heap fields n field).type.name = field.type.name :=
  Object.name_foldl_addFieldConfig _ _ _ _

theorem withEdges_congr (heap : List SchemaNode) {F G : GoMap GqlField} (h : ArgsAgree F G)
    (n : SchemaNode) : withEdges heap F n = withEdges heap G n := by
  funext field
  simp only [withEdges, addEdgeFields, edgeField_congr heap h]

/-- `addGraphEdges` on a node whose table has an entry writes that entry only, adding the fields
of the node's edges. -/
theorem addGraphEdges_lookup (heap : List SchemaNode) (n : SchemaNode) {fields : GoMap GqlField}
    {field : GqlField} (hf : fields.lookup n.table.name = some field) :
    ∃ fields', addGraphEdges heap n fields = some fields' ∧ ∀ k, fields'.lookup k =
      if k = n.table.name then some (withEdges heap fields n field) else fields.lookup k := by
  suffices ∀ (es : List SchemaEdge) (F : GoMap GqlField) (fF : GqlField),
      F.lookup n.table.name = some fF → ArgsAgree F fields →
      ∃ F', es.foldlM (addEdgeField heap n) F = some F' ∧ ∀ k, F'.lookup k =
        if k = n.table.name then some { fF with type := addEdgeFields heap fields es fF.type }
        else F.lookup k from
    this n.edges fields field hf fun _ => rfl
  intro es
  induction es with
  | nil =>
    intro F fF hF _
    refine ⟨F, rfl, fun k => ?_⟩
    split_ifs with hk
    · rw [hk, hF]; rfl
    · rfl
  | cons e es ih =>
    intro F fF hF hA
    have hA₁ : ArgsAgree (F.insert n.table.name
        { fF with type := (fF.type.addFieldConfig (nameOf heap e.node)
          (edgeField heap fields e)) }) fields := fun k => by
      by_cases hk : k = n.table.name
      · subst hk; rw [AList.lookup_insert, ← hA, hF]; rfl
      · rw [AList.lookup_insert_ne hk, hA]
    obtain ⟨F', h', hl⟩ := ih _ _ (AList.lookup_insert _) hA₁
    refine ⟨F', ?_, fun k => ?_⟩
    · simpa [List.foldlM_cons, addEdgeField, hF, edgeField_congr heap hA] using h'
    · rw [hl k]
      split_ifs with hk
      · rfl
      · exact AList.lookup_insert_ne hk

theorem foldlM_addGraphEdges (A : GoMap GqlField) :
    ∀ (L : List Nat), (L.map g.name).Nodup → ∀ F : GoMap GqlField, ArgsAgree F A →
      (∀ p ∈ L, (F.lookup (g.name p)).isSome) →
      ∃ F', L.foldlM (fun fields p => addGraphEdges g.heap (g.node p) fields) F = some F' ∧
        ∀ k, F'.lookup k = (F.lookup k).map fun field =>
          ((L.find? fun p => g.name p = k).map fun p => withEdges g.heap A (g.node p) field).getD
            field
  | [], _, F, _, _ => ⟨F, rfl, fun k => by cases F.lookup k <;> rfl⟩
  | p :: L, hL, F, hA, hcov => by
    obtain ⟨fp, hfp⟩ := Option.isSome_iff_exists.mp (hcov p (List.mem_cons_self _ _))
    obtain ⟨F₁, h₁, hl₁⟩ := addGraphEdges_lookup g.heap (g.node p) hfp
    simp only [SchemaGraph.table_name_node] at hl₁
    have hA₁ : ArgsAgree F₁ A := fun k => by
      rw [hl₁ k]; split_ifs with hk
      · rw [← hA, hk]; simp [hfp]
      · exact hA k
    have hcov₁ : ∀ q ∈ L, (F₁.lookup (g.name q)).isSome := fun q hq => by
      have hne : g.name q ≠ g.name p := fun h =>
        (List.nodup_cons.mp hL).1 (h ▸ List.mem_map_of_mem _ hq)
      rw [hl₁, if_neg hne]
      exact hcov q (List.mem_cons_of_mem _ hq)
    obtain ⟨F', h', hl'⟩ := foldlM_addGraphEdges A L (List.nodup_cons.mp hL).2 F₁ hA₁ hcov₁
    refine ⟨F', by simpa [List.foldlM_cons, h₁] using h', fun k => ?_⟩
    rw [hl', hl₁]
    by_cases hk : k = g.name p
    · subst hk
      have hnone : L.find? (fun q => g.name q = g.name p) = none :=
        List.find?_eq_none.mpr fun q hq h =>
          (List.nodup_cons.mp hL).1 (List.mem_map.mpr ⟨q, hq, of_decide_eq_true h⟩)
      simp [hnone, hfp, List.find?_cons, withEdges_congr g.heap hA]
    · simp [hk, List.find?_cons, Ne.symm hk]

end Passes

/-! ## The schema -/

section Schema

variable {g : SchemaGraph}

theorem order_eq_nil (hn : g.nodes = []) : g.order = [] := by
  simp [SchemaGraph.order, hn, SchemaGraph.dfsEach]

/-- The builder returns the empty schema only for a graph whose traversal visits nothing. -/
theorem order_eq_nil_of_empty (hs : schemaConfig g = some .empty) : g.order = [] := by
  rw [schemaConfig_eq] at hs
  split_ifs at hs with hn
  · exact order_eq_nil hn
  · obtain ⟨_, -, h⟩ := Option.map_eq_some'.mp hs
    cases h

/-- **`schemaConfig` runs to its end** exactly when no visited table has a List field. -/
theorem schemaConfig_isSome :
    (schemaConfig g).isSome ↔ ∀ p ∈ g.order, ∀ f ∈ (g.node p).table.fields, f.type ≠ .list := by
  simp only [← tableGqlField_isSome, ← fieldsPass_isSome, schemaConfig_eq]
  split_ifs with hn
  · simp [fieldsPass, order_eq_nil hn]
  rcases h : fieldsPass g with _ | fields
  · rfl
  obtain ⟨F', h', -⟩ := foldlM_addGraphEdges fields g.order g.nodup_names_order fields
    (fun _ => rfl) (fieldsPass_covers h)
  simp [edgesPass, h']

/-- **The schema over the visit order.** The query object is built from the `fields` map, which
holds an entry exactly for each visited table: the `gqlField` `addGraphFields` builds for the
table, with the fields of the node's edges added. -/
theorem schemaConfig_lookup {query : Object} {fields : GoMap GqlField}
    (hs : schemaConfig g = some (.ofConfig query fields)) :
    query = queryObject fields ∧
    (∀ p ∈ g.order, ∃ field, tableGqlField (g.node p).table = some field ∧
      fields.lookup (g.name p) = some (withEdges g.heap fields (g.node p) field)) ∧
    ∀ k ∉ g.order.map g.name, fields.lookup k = none := by
  rw [schemaConfig_eq] at hs
  split_ifs at hs
  · simp at hs
  rcases h₁ : fieldsPass g with _ | F₁
  · simp [h₁] at hs
  have hnames := g.nodup_names_order
  obtain ⟨F', h', hl'⟩ :=
    foldlM_addGraphEdges F₁ g.order hnames F₁ (fun _ => rfl) (fieldsPass_covers h₁)
  simp only [h₁, Option.some_bind, edgesPass, h', Option.map_some', Option.some.injEq,
    GraphQLSchema.ofConfig.injEq] at hs
  obtain ⟨rfl, rfl⟩ := hs
  have hA : ArgsAgree F' F₁ := fun k => by
    rw [hl' k]
    cases F₁.lookup k <;> cases (g.order.find? fun p => g.name p = k) <;> rfl
  refine ⟨rfl, fun p hp => ?_, fun k hk => ?_⟩
  · obtain ⟨field, hfield⟩ :=
      Option.isSome_iff_exists.mp (fieldsPass_isSome.mp (by simp [h₁]) p hp)
    refine ⟨field, hfield, ?_⟩
    rw [hl', lookup_fieldsPass_of_mem h₁ hp, hfield, find?_key_of_nodup g.name hnames hp,
      withEdges_congr g.heap hA]
    rfl
  · have hnone : (g.order.reverse.find? fun p => g.name p = k) = none :=
      List.find?_eq_none.mpr fun q hq h =>
        hk (List.mem_map.mpr ⟨q, List.mem_reverse.mp hq, of_decide_eq_true h⟩)
    rw [hl', lookup_fieldsPass h₁, hnone]
    rfl

/-- Each stored `gqlField`'s object is named by its key. -/
theorem name_of_lookup {query : Object} {fields : GoMap GqlField}
    (hs : schemaConfig g = some (.ofConfig query fields)) {k : String} {field : GqlField}
    (hk : fields.lookup k = some field) : field.type.name = k := by
  obtain ⟨-, hentry, hnone⟩ := schemaConfig_lookup hs
  by_cases hm : k ∈ g.order.map g.name
  · obtain ⟨q, hq, rfl⟩ := List.mem_map.mp hm
    obtain ⟨field₀, h₀, hf⟩ := hentry q hq
    rw [hf, Option.some.injEq] at hk
    rw [← hk, name_withEdges, (tableGqlField_spec h₀).1]
    rfl
  · simp [hnone k hm] at hk

/-- The query object has, under each valid name of a stored table, a field of a list of its
object, taking its arguments. -/
theorem lookup_queryObject {fields : GoMap GqlField}
    (hname : ∀ k field, fields.lookup k = some field → field.type.name = k) {k : String}
    (hk : validName k) :
    (queryObject fields).fields.lookup k =
      (fields.lookup k).map fun field => ⟨.list (.object k), field.args⟩ := by
  have hkey : ∀ e ∈ fields.entries.reverse,
      decide (e.2.type.typeName = k) = decide (e.1 = k) := fun e he => by
    rw [Object.typeName, hname e.1 e.2 (AList.mem_lookup_iff.mpr (List.mem_reverse.mp he))]
    split_ifs with hv
    · rfl
    · refine decide_eq_decide.mpr ⟨fun h => absurd (h ▸ hk) (by decide), fun h => ?_⟩
      exact absurd (h ▸ hk) hv
  simp only [queryObject]
  rw [lookup_foldl_insert, AList.lookup_empty, Option.or_none, find?_congr hkey]
  rcases hk' : fields.lookup k with _ | field
  · rw [List.find?_eq_none.mpr fun e he h => ?_]
    · rfl
    have he' := AList.mem_lookup_iff.mpr (List.mem_reverse.mp he)
    rw [of_decide_eq_true h, hk'] at he'
    cases he'
  · exact congrArg _ (find?_reverse_key_of_nodup Sigma.fst fields.keys_nodup
      (AList.mem_lookup_iff.mp hk'))

/-- **A visited table in the schema.** The schema holds, under the name of every visited node, the
object `addGraphFields` builds for its table with the node's edge fields added (so a field under a
name no edge targets is as `addGraphFields` built it), the table's argument set, and a query field
of a list of the object, taking those arguments. -/
theorem schemaConfig_table {s : GraphQLSchema} (hs : schemaConfig g = some s) {p : Nat}
    (hp : p ∈ g.order) :
    ∃ field o, tableGqlField (g.node p).table = some field ∧ s.object? (g.name p) = some o ∧
      o.name = g.name p ∧
      (∀ k, (∀ e ∈ (g.node p).edges, g.name e.node ≠ k) →
        o.fields.lookup k = field.type.fields.lookup k) ∧
      s.args? (g.name p) = some field.args ∧
      (validName (g.name p) →
        s.queryField? (g.name p) = some ⟨.list (.object (g.name p)), field.args⟩) := by
  cases s with
  | empty => exact absurd hp (by simp [order_eq_nil_of_empty hs])
  | ofConfig query fields =>
    obtain ⟨rfl, hentry, -⟩ := schemaConfig_lookup hs
    obtain ⟨field, h₀, hf⟩ := hentry p hp
    refine ⟨field, (withEdges g.heap fields (g.node p) field).type, h₀,
      by simp [GraphQLSchema.object?, hf], ?_, fun k hk => ?_,
      by simp [GraphQLSchema.args?, hf], ?_⟩
    · rw [name_withEdges, (tableGqlField_spec h₀).1]
      rfl
    · exact lookup_foldl_addFieldConfig_of_forall_ne _ _ _ hk
    · exact fun hv => by
        simp [GraphQLSchema.queryField?, lookup_queryObject (fun _ _ => name_of_lookup hs) hv, hf]

end Schema

end Bubbly
