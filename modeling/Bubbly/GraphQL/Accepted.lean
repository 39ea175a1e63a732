import Bubbly.GraphQL.NewSchema
import Bubbly.GraphQL.Names
import Bubbly.GraphQL.Filter

/-!
# The configs `NewSchema` accepts

**Theorem (`newGraphQLSchema_ok`).** For a schema graph whose visited tables have valid names
and fields with valid names, none of them a List, and whose visited names are not those of the
query object or the shared types (`reservedTypeNames`) nor another visited name followed by
`_filter` or `_order`, `newGraphQLSchema` returns, without an error, the schema of the config the
two traversals build.

**Proof.** The config is one `NewSchema_ok` accepts (`ConfigOK`). Every write the builder makes
keeps a property of all entries of a map (`forall_entries_insert`): the first pass writes scalar
fields and arguments under valid names, and, under `filter` and `order_by`, input objects named
after the table whose members have valid names; the second pass writes edge fields, of the
objects of visited tables, since `Traverse` visits the target of every edge of a visited node.
The named types are then the query object, the shared types, and for each visited table `x` its
object and its input objects `x_filter` and `x_order`: the conditions on the names make these
names distinct.
-/

namespace Bubbly

open GraphQL

/-! ## Properties of every entry of a map -/

/-- A property of every entry survives the write of an entry that has it. -/
theorem forall_entries_insert {V : Type} {P : (Sigma fun _ : String => V) → Prop}
    {m : GoMap V} {k : String} {v : V} (hm : ∀ a ∈ m.entries, P a) (hkv : P ⟨k, v⟩) :
    ∀ a ∈ (m.insert k v).entries, P a := by
  intro a ha
  rw [AList.insert_entries, List.mem_cons] at ha
  rcases ha with rfl | ha
  · exact hkv
  · exact hm a ((List.kerase_sublist _ _).subset ha)

theorem forall_entries_foldl_insert {α V : Type} (key : α → String) (val : α → V)
    {P : (Sigma fun _ : String => V) → Prop} :
    ∀ (l : List α) {m : GoMap V}, (∀ a ∈ m.entries, P a) → (∀ x ∈ l, P ⟨key x, val x⟩) →
      ∀ a ∈ (l.foldl (fun m x => m.insert (key x) (val x)) m).entries, P a
  | [], _, hm, _ => hm
  | x :: l, _, hm, hl => forall_entries_foldl_insert key val l
      (forall_entries_insert hm (hl x (List.mem_cons_self _ _)))
      fun y hy => hl y (List.mem_cons_of_mem _ hy)

/-- A loop whose every turn may panic and keeps a property keeps it, when it runs to its end. -/
theorem foldlM_option_inv {α β : Type} {f : β → α → Option β} (P : β → Prop) :
    ∀ {l : List α}, (∀ b x b', x ∈ l → P b → f b x = some b' → P b') →
      ∀ {b r : β}, l.foldlM f b = some r → P b → P r
  | [], _, _, _, h, hb => by
    cases h
    exact hb
  | x :: l, hstep, b, r, h, hb => by
    rw [List.foldlM_cons] at h
    rcases hx : f b x with _ | b'
    · simp [hx] at h
    · rw [hx, Option.bind_eq_bind, Option.some_bind] at h
      exact foldlM_option_inv P (fun c y c' hy => hstep c y c' (List.mem_cons_of_mem _ hy)) h
        (hstep b x b' (List.mem_cons_self _ _) hb hx)

/-! ## Valid names -/

theorem validName_append {x s : String} (hx : validName x)
    (hs : s.data.all fun c => c == '_' || c.isAlphanum) : validName (x ++ s) := by
  unfold validName at hx ⊢
  rw [String.data_append]
  cases h : x.data with
  | nil => rw [h] at hx; cases hx
  | cons c cs =>
    rw [h] at hx
    simp only [List.cons_append, Bool.and_eq_true, List.all_append] at hx ⊢
    exact ⟨hx.1, hx.2, hs⟩

theorem ne_append_of_not_suffix {c y s : String} (h : ¬ s.data <:+ c.data) : c ≠ y ++ s := by
  rintro rfl
  exact h (by rw [String.data_append]; exact List.suffix_append _ _)

/-! ## A table's `gqlField` -/

/-- A filter input object over scalar arguments with valid names, among them `_id`, is one
`NewSchema` accepts. -/
theorem graphQLFilterType_ok {x : String} {args : FieldConfigArgument}
    (h : ∀ a ∈ args.entries, validName a.1 ∧ ∃ s, a.2 = .input (.scalar s))
    (hid : tableIDField ∈ args) : InputOK (graphQLFilterType x args) := by
  refine ⟨fun hnil => ?_, ?_⟩
  · have hmem : tableIDField ++ "_gt" ∈ (graphQLFilterType x args).fields :=
      (mem_graphQLFilterType x args _).mpr ⟨_, AList.mem_keys.mp hid, "_gt", by decide, rfl⟩
    rw [AList.mem_keys, AList.keys, hnil] at hmem
    cases hmem
  · rw [graphQLFilterType_fields]
    refine forall_entries_foldl_insert Prod.fst Prod.snd _ (by simp) fun w hw => ?_
    obtain ⟨a, ha, op, hop, rfl⟩ : ∃ a ∈ args.entries, ∃ op ∈ filterOps,
        w = (a.1 ++ op, filterMemberType a.2 op) := by
      simpa [filterWrites, eq_comm] using hw
    obtain ⟨hva, sc, hsc⟩ := h a ha
    have hops : ∀ op ∈ filterOps, (op.data.all fun c => c == '_' || c.isAlphanum) = true := by
      decide
    refine ⟨validName_append hva (hops op hop), ?_⟩
    simp only [filterMemberType, hsc, ArgType.ref]
    split_ifs <;> cases sc <;> decide

/-- An order input object over fields with valid names, among them `_id`, is one `NewSchema`
accepts. -/
theorem graphQLOrderType_ok {x : String} {fields : GoMap Field}
    (h : ∀ e ∈ fields.entries, validName e.1) (hid : tableIDField ∈ fields) :
    InputOK (graphQLOrderType x fields) := by
  refine ⟨fun hnil => ?_, forall_entries_foldl_insert (fun n : Sigma fun _ : String => Field => n.1)
    (fun _ => InputType.named enumOrderBy) fields.entries (m := ∅) (by simp)
      fun e he => ⟨h e he, (by decide : NamedType.enum enumOrderBy ∈ sharedTypes)⟩⟩
  have hmem : tableIDField ∈ (graphQLOrderType x fields).fields := by
    simp only [graphQLOrderType, mem_foldl_insert, AList.not_mem_empty, or_false]
    obtain ⟨v, hv⟩ := Option.isSome_iff_exists.mp (AList.lookup_isSome.mpr hid)
    exact ⟨⟨_, v⟩, AList.mem_lookup_iff.mp hv, rfl⟩
  rw [AList.mem_keys, AList.keys, hnil] at hmem
  cases hmem

/-- An argument as the builder makes them for the table `x`: a scalar, or, under `filter` and
`order_by`, an input object named after the table that `NewSchema` accepts. -/
def TableArg (x : String) (a : Sigma fun _ : String => ArgType) : Prop :=
  validName a.1 ∧ ((∃ s, a.2 = .input (.scalar s)) ∨ ∃ o, a.2 = .inputObject o ∧ InputOK o ∧
    ((a.1 = filterID ∧ o.name = x ++ "_filter") ∨ (a.1 = orderByID ∧ o.name = x ++ orderByType)))

section Table

variable {t : Table} (hv : ∀ f ∈ t.fields, validName f.name)
include hv

/-- The loop over a table's fields writes scalar fields and arguments under valid names. -/
theorem foldlM_addFieldArg_ok {r : GoMap Field × FieldConfigArgument}
    (h : t.fields.foldlM addFieldArg (∅, ∅) = some r) :
    (∀ e ∈ r.1.entries, validName e.1 ∧ ∃ s, e.2 = ⟨.scalar s, ∅⟩) ∧
      ∀ a ∈ r.2.entries, validName a.1 ∧ ∃ s, a.2 = .input (.scalar s) := by
  refine foldlM_option_inv (fun acc : GoMap Field × FieldConfigArgument =>
    (∀ e ∈ acc.1.entries, validName e.1 ∧ ∃ s, e.2 = ⟨.scalar s, ∅⟩) ∧
      ∀ a ∈ acc.2.entries, validName a.1 ∧ ∃ s, a.2 = .input (.scalar s))
    (fun acc f acc' hf hP hstep => ?_) h ⟨by simp, by simp⟩
  simp only [addFieldArg, Option.map_eq_some'] at hstep
  obtain ⟨ft, -, rfl⟩ := hstep
  exact ⟨forall_entries_insert hP.1 ⟨hv f hf, ft, rfl⟩,
    forall_entries_insert hP.2 ⟨hv f hf, ft, rfl⟩⟩

/-- **A table's `gqlField`** has a non-empty object of scalar fields with valid names, and
arguments as the builder makes them. -/
theorem tableGqlField_ok {field : GqlField} (h : tableGqlField t = some field) :
    field.type.fields.entries ≠ [] ∧
    (∀ e ∈ field.type.fields.entries, validName e.1 ∧ ∃ s, e.2 = ⟨.scalar s, ∅⟩) ∧
    ∀ a ∈ field.args.entries, TableArg t.name a := by
  rcases hr : t.fields.foldlM addFieldArg (∅, ∅) with _ | ⟨typeFields, args⟩
  · simp [tableGqlField, hr] at h
  simp only [tableGqlField, hr, Option.bind_eq_bind, Option.some_bind, pure,
    Option.some.injEq] at h
  subst h
  obtain ⟨hT, hA⟩ := foldlM_addFieldArg_ok hv hr
  have hT₁ := forall_entries_insert (k := tableIDField) (v := ⟨.scalar .string, ∅⟩) hT
    ⟨by decide, .string, rfl⟩
  have hA₁ := forall_entries_insert (k := tableIDField) (v := .input (.scalar .string)) hA
    ⟨by decide, .string, rfl⟩
  have hmemT : tableIDField ∈ typeFields.insert tableIDField ⟨.scalar .string, ∅⟩ :=
    (AList.mem_insert _).mpr (.inl rfl)
  have hmemA : tableIDField ∈ args.insert tableIDField (.input (.scalar .string)) :=
    (AList.mem_insert _).mpr (.inl rfl)
  refine ⟨by simp [AList.insert_entries], hT₁, ?_⟩
  have hscalar : ∀ a : Sigma fun _ : String => ArgType,
      (validName a.1 ∧ ∃ s, a.2 = .input (.scalar s)) → TableArg t.name a :=
    fun a ha => ⟨ha.1, .inl ha.2⟩
  refine forall_entries_insert (forall_entries_insert (forall_entries_insert
    (forall_entries_insert (forall_entries_insert (fun a ha => hscalar a (hA₁ a ha))
      ⟨(by decide : validName filterID),
        .inr ⟨_, rfl, graphQLFilterType_ok hA₁ hmemA, .inl ⟨rfl, rfl⟩⟩⟩)
      ⟨(by decide : validName orderByID),
        .inr ⟨_, rfl, graphQLOrderType_ok (fun e he => (hT₁ e he).1) hmemT,
        .inr ⟨rfl, rfl⟩⟩⟩)
    (hscalar _ ⟨by decide, .boolean, rfl⟩)) (hscalar _ ⟨by decide, .int, rfl⟩))
    (hscalar _ ⟨by decide, .int, rfl⟩)

end Table

/-! ## The objects of the second pass -/

theorem forall_entries_foldl_addFieldConfig {α : Type} (key : α → String) (val : α → Field)
    {P : (Sigma fun _ : String => Field) → Prop} :
    ∀ (l : List α) {o : Object}, (∀ a ∈ o.fields.entries, P a) → (∀ x ∈ l, P ⟨key x, val x⟩) →
      ∀ a ∈ (l.foldl (fun o x => o.addFieldConfig (key x) (val x)) o).fields.entries, P a
  | [], _, ho, _ => ho
  | x :: l, o, ho, hl => by
    refine forall_entries_foldl_addFieldConfig key val l ?_ fun y hy => hl y (List.mem_cons_of_mem _ hy)
    dsimp only [Object.addFieldConfig]
    split
    · exact ho
    · exact forall_entries_insert ho (hl x (List.mem_cons_self _ _))

theorem entries_ne_nil_foldl_addFieldConfig {α : Type} (key : α → String) (val : α → Field) :
    ∀ (l : List α) {o : Object}, o.fields.entries ≠ [] →
      (l.foldl (fun o x => o.addFieldConfig (key x) (val x)) o).fields.entries ≠ []
  | [], _, ho => ho
  | x :: l, o, ho => by
    refine entries_ne_nil_foldl_addFieldConfig key val l ?_
    dsimp only [Object.addFieldConfig]
    split
    · exact ho
    · simp [AList.insert_entries]

/-- The names of the shared types. -/
def sharedTypeNames : List String :=
  ["Boolean", "Int", "String", "Map", "Order"] ++ introspectionTypes

/-- The names no table may take: those of the query object and of the shared types. -/
def reservedTypeNames : List String :=
  "query" :: sharedTypeNames

theorem configTypeName_shared (fields : GoMap GqlField) :
    ∀ t ∈ sharedTypes, configTypeName fields t = configTypeName ∅ t := by
  simp only [sharedTypes, introspectionTypes, List.map_cons, List.map_nil, List.cons_append,
    List.nil_append, List.mem_cons, List.not_mem_nil, or_false]
  rintro t (rfl | rfl | rfl | rfl | rfl | rfl | rfl | rfl | rfl | rfl | rfl | rfl | rfl) <;> rfl

/-- The shared types have distinct names, none a name followed by `_filter` or `_order`. -/
theorem sharedTypes_names :
    (∀ t ∈ sharedTypes, configTypeName ∅ t ∈ sharedTypeNames) ∧
    (∀ a ∈ sharedTypes, ∀ b ∈ sharedTypes, configTypeName ∅ a = configTypeName ∅ b → a = b) ∧
    ∀ c ∈ reservedTypeNames, ¬ "_filter".data <:+ c.data ∧ ¬ orderByType.data <:+ c.data := by
  decide

section Builder

variable {g : SchemaGraph} {query : Object} {fields : GoMap GqlField}
  (hs : schemaConfig g = some (.ofConfig query fields))
  (hv : ∀ p ∈ g.order, validName (g.name p) ∧ ∀ f ∈ (g.node p).table.fields, validName f.name)
include hs hv

omit hv in
/-- A stored object is named by its key, the name of a visited node. -/
theorem stored_name {k : String} {field : GqlField} (hk : fields.lookup k = some field) :
    field.type.name = k ∧ ∃ p ∈ g.order, g.name p = k := by
  obtain ⟨-, -, hnone⟩ := schemaConfig_lookup hs
  by_cases hm : k ∈ g.order.map g.name
  · obtain ⟨p, hp, rfl⟩ := List.mem_map.mp hm
    exact ⟨name_of_lookup hs hk, p, hp, rfl⟩
  · rw [hnone k hm] at hk
    cases hk

omit hv in
/-- A stored `gqlField` is that of a visited node's table, with the node's edge fields. -/
theorem stored_gqlField {k : String} {field : GqlField} (hk : fields.lookup k = some field) :
    ∃ p ∈ g.order, g.name p = k ∧ ∃ field₀, tableGqlField (g.node p).table = some field₀ ∧
      field = withEdges g.heap fields (g.node p) field₀ := by
  obtain ⟨-, p, hp, rfl⟩ := stored_name hs hk
  obtain ⟨-, hentry, -⟩ := schemaConfig_lookup hs
  obtain ⟨field₀, h₀, hf⟩ := hentry p hp
  rw [hk, Option.some.injEq] at hf
  exact ⟨p, hp, rfl, field₀, h₀, hf⟩

/-- The target of every edge of a visited node has a stored object. -/
theorem lookup_edge_target {p : Nat} (hp : p ∈ g.order) {e : SchemaEdge}
    (he : e ∈ (g.node p).edges) : ∃ field, fields.lookup (g.name e.node) = some field ∧
      validName (g.name e.node) := by
  obtain ⟨q, hq, hname⟩ := List.mem_map.mp (g.names_order_closed.2 p hp e he)
  obtain ⟨-, hentry, -⟩ := schemaConfig_lookup hs
  obtain ⟨field₀, -, hf⟩ := hentry q hq
  exact ⟨_, hname ▸ hf, hname ▸ (hv q hq).1⟩

theorem stored_objectFields {k : String} {field : GqlField} (hk : fields.lookup k = some field) :
    field.type.fields.entries ≠ [] ∧
      ∀ f ∈ field.type.fields.entries, validName f.1 ∧ FieldOK fields f.2 := by
  obtain ⟨p, hp, -, field₀, h₀, rfl⟩ := stored_gqlField hs hk
  obtain ⟨hne, hT, -⟩ := tableGqlField_ok (hv p hp).2 h₀
  refine ⟨entries_ne_nil_foldl_addFieldConfig _ _ _ hne, forall_entries_foldl_addFieldConfig _ _ _
    (fun a ha => ?_) fun e he => ?_⟩
  · obtain ⟨hva, sc, hsc⟩ := hT a ha
    exact ⟨hva, .inl ⟨sc, by rw [hsc], by rw [hsc]⟩⟩
  · obtain ⟨fu, hu, hvu⟩ := lookup_edge_target hs hv hp he
    refine ⟨hvu, .inr ⟨_, fu, hu, ?_, by simp [edgeField, argsOf, ← SchemaGraph.name.eq_1, hu]⟩⟩
    simp only [edgeField]
    split_ifs
    · exact .inl rfl
    · exact .inr rfl

theorem stored_args {k : String} {field : GqlField} (hk : fields.lookup k = some field) :
    ∀ a ∈ field.args.entries, TableArg k a := by
  obtain ⟨p, hp, rfl, field₀, h₀, rfl⟩ := stored_gqlField hs hk
  simpa using (tableGqlField_ok (hv p hp).2 h₀).2.2

/-- The named types of the config, by name: the query object, a shared type, the object of a
visited table `x`, or its input object `x_filter` or `x_order`. -/
theorem configTypeName_cases {t : NamedType} (ht : t ∈ configTypes fields) :
    (t = .query ∧ configTypeName fields t = "query") ∨
    (t ∈ sharedTypes ∧ configTypeName fields t ∈ sharedTypeNames) ∨
    (∃ k ∈ g.order.map g.name, t = .object k ∧ configTypeName fields t = k) ∨
    ∃ k ∈ g.order.map g.name, ∃ field o, fields.lookup k = some field ∧ t = .inputObject o ∧
      ((field.args.lookup filterID = some (.inputObject o) ∧
          configTypeName fields t = k ++ "_filter") ∨
        (field.args.lookup orderByID = some (.inputObject o) ∧
          configTypeName fields t = k ++ orderByType)) := by
  simp only [configTypes, List.mem_cons, List.mem_append, List.mem_flatMap] at ht
  rcases ht with rfl | hsh | ⟨e, he, rfl | hio⟩
  · exact .inl ⟨rfl, rfl⟩
  · exact .inr (.inl ⟨hsh, configTypeName_shared fields t hsh ▸ sharedTypes_names.1 t hsh⟩)
  · have hk : fields.lookup e.1 = some e.2 := AList.mem_lookup_iff.mpr he
    obtain ⟨hname, p, hp, hpk⟩ := stored_name hs hk
    have hvk : validName e.2.type.name := hname ▸ hpk ▸ (hv p hp).1
    refine .inr (.inr (.inl ⟨e.1, List.mem_map.mpr ⟨p, hp, hpk⟩, rfl, ?_⟩))
    simp [configTypeName, hk, typeName_of_validName hvk, hname]
  · have hk : fields.lookup e.1 = some e.2 := AList.mem_lookup_iff.mpr he
    obtain ⟨-, p, hp, hpk⟩ := stored_name hs hk
    obtain ⟨a, ha, hio⟩ := List.mem_filterMap.mp hio
    cases hat : a.2 with
    | input _ => rw [hat] at hio; cases hio
    | inputObject o =>
      rw [hat] at hio
      cases hio
      have hl : e.2.args.lookup a.1 = some (.inputObject o) :=
        hat ▸ AList.mem_lookup_iff.mpr ha
      obtain ⟨-, harg⟩ := stored_args hs hv hk a ha
      rw [hat] at harg
      rcases harg with ⟨_, h⟩ | ⟨o', ho', -, hname⟩
      · cases h
      · cases ho'
        refine .inr (.inr (.inr ⟨e.1, List.mem_map.mpr ⟨p, hp, hpk⟩, e.2, o, hk, rfl, ?_⟩))
        rcases hname with ⟨h₁, h₂⟩ | ⟨h₁, h₂⟩
        · exact .inl ⟨h₁ ▸ hl, h₂⟩
        · exact .inr ⟨h₁ ▸ hl, h₂⟩

variable (hfree : ∀ x ∈ g.order.map g.name, x ∉ reservedTypeNames ∧
  ∀ y ∈ g.order.map g.name, x ≠ y ++ "_filter" ∧ x ≠ y ++ orderByType)
include hfree

/-- **Distinct names.** The named types of the config have distinct names. -/
theorem configTypes_distinct : ∀ a ∈ configTypes fields, ∀ b ∈ configTypes fields,
    configTypeName fields a = configTypeName fields b → a = b := by
  have hres : ∀ c ∈ reservedTypeNames, ∀ y, c ≠ y ++ "_filter" ∧ c ≠ y ++ orderByType :=
    fun c hc _ => ⟨ne_append_of_not_suffix (sharedTypes_names.2.2 c hc).1,
      ne_append_of_not_suffix (sharedTypes_names.2.2 c hc).2⟩
  have hq : "query" ∈ reservedTypeNames := List.mem_cons_self _ _
  have hsh : ∀ c ∈ sharedTypeNames, c ∈ reservedTypeNames := fun c hc => List.mem_cons_of_mem _ hc
  -- a table's input object is named after it, and no reserved name nor table name is such a name
  have hsuf : ∀ {k c : String}, (c = k ++ "_filter" ∨ c = k ++ orderByType) →
      c ∉ reservedTypeNames := fun {k} _ hc hr => by
    rcases hc with rfl | rfl
    · exact (hres _ hr k).1 rfl
    · exact (hres _ hr k).2 rfl
  have hsuf' : ∀ {k c : String}, k ∈ g.order.map g.name → c ∈ g.order.map g.name →
      ¬ (c = k ++ "_filter" ∨ c = k ++ orderByType) := fun {k} _ hk hc h => by
    rcases h with rfl | rfl
    · exact ((hfree _ hc).2 k hk).1 rfl
    · exact ((hfree _ hc).2 k hk).2 rfl
  intro a ha b hb hab
  rcases configTypeName_cases hs hv ha with ⟨rfl, hna⟩ | ⟨has, hna⟩ | ⟨k, hk, rfl, hna⟩ |
      ⟨k, hk, f, o, hf, rfl, hfo⟩ <;>
    rcases configTypeName_cases hs hv hb with ⟨rfl, hnb⟩ | ⟨hbs, hnb⟩ | ⟨k', hk', rfl, hnb⟩ |
      ⟨k', hk', f', o', hf', rfl, hfo'⟩
  -- the query object
  · rfl
  · exact absurd (show "query" ∈ sharedTypeNames by rw [← hna, hab]; exact hnb) (by decide)
  · exact absurd (show k' ∈ reservedTypeNames by rw [← hnb, ← hab, hna]; exact hq) (hfree k' hk').1
  · exact absurd (show _ ∈ reservedTypeNames by rw [← hab, hna]; exact hq)
      (hsuf (hfo'.imp (·.2) (·.2)))
  -- a shared type
  · exact absurd (show "query" ∈ sharedTypeNames by rw [← hnb, ← hab]; exact hna) (by decide)
  · exact sharedTypes_names.2.1 a has b hbs (by
      rwa [← configTypeName_shared fields a has, ← configTypeName_shared fields b hbs])
  · exact absurd (hsh _ (show k' ∈ sharedTypeNames by rw [← hnb, ← hab]; exact hna))
      (hfree k' hk').1
  · exact absurd (hsh _ (show _ ∈ sharedTypeNames by rw [← hab]; exact hna))
      (hsuf (hfo'.imp (·.2) (·.2)))
  -- the object of a table
  · exact absurd (show k ∈ reservedTypeNames by rw [← hna, hab, hnb]; exact hq) (hfree k hk).1
  · exact absurd (hsh _ (show k ∈ sharedTypeNames by rw [← hna, hab]; exact hnb)) (hfree k hk).1
  · rw [show k = k' by rw [← hna, ← hnb, hab]]
  · exact (hsuf' hk' hk (by rw [← hna, hab]; exact hfo'.imp (·.2) (·.2))).elim
  -- an input object of a table
  · exact absurd (show _ ∈ reservedTypeNames by rw [hab, hnb]; exact hq)
      (hsuf (hfo.imp (·.2) (·.2)))
  · exact absurd (hsh _ (show _ ∈ sharedTypeNames by rw [hab]; exact hnb))
      (hsuf (hfo.imp (·.2) (·.2)))
  · exact (hsuf' hk hk' (by rw [← hnb, ← hab]; exact hfo.imp (·.2) (·.2))).elim
  · -- with one suffix, one table's argument of one name
    have hsame : ∀ {c : String}, k = k' → f.args.lookup c = some (.inputObject o) →
        f'.args.lookup c = some (.inputObject o') → NamedType.inputObject o = .inputObject o' := by
      rintro c rfl hl hl'
      rw [hf, Option.some.injEq] at hf'
      subst hf'
      rw [hl, Option.some.injEq, ArgType.inputObject.injEq] at hl'
      rw [hl']
    rcases hfo with ⟨hl, hn⟩ | ⟨hl, hn⟩ <;> rcases hfo' with ⟨hl', hn'⟩ | ⟨hl', hn'⟩ <;>
      rw [hn, hn'] at hab
    · exact hsame (append_right_cancel hab) hl hl'
    · exact absurd hab (append_filter_ne_append_order k k')
    · exact absurd hab.symm (append_filter_ne_append_order k' k)
    · exact hsame (append_right_cancel hab) hl hl'

/-- **The builder's config is one `NewSchema` accepts.** -/
theorem configOK_of_schemaConfig : ConfigOK fields where
  nonempty hnil := by
    have hn : g.nodes ≠ [] := fun hn => by
      rw [schemaConfig_eq, if_pos hn] at hs
      cases hs
    obtain ⟨r, hr⟩ := List.exists_mem_of_ne_nil _ hn
    obtain ⟨p, hp, -⟩ := List.mem_map.mp (g.names_order_closed.1 r hr)
    obtain ⟨-, hentry, -⟩ := schemaConfig_lookup hs
    obtain ⟨_, -, hf⟩ := hentry p hp
    rw [AList.lookup, hnil] at hf
    cases hf
  name k field hk := by
    obtain ⟨hname, p, hp, rfl⟩ := stored_name hs hk
    exact ⟨hname, (hv p hp).1⟩
  objectFields _ _ hk := stored_objectFields hs hv hk
  args _ _ hk a ha := by
    obtain ⟨hva, ⟨sc, hsc⟩ | ⟨o, ho, hok, -⟩⟩ := stored_args hs hv hk a ha
    · refine ⟨hva, .inl ?_⟩
      rw [hsc]
      cases sc <;> decide
    · exact ⟨hva, .inr ⟨o, ho, hok⟩⟩
  distinct := configTypes_distinct hs hv hfree

end Builder

/-- **`newGraphQLSchema` returns** the schema of the config the two traversals build, on a graph
whose visited tables have valid names, fields of valid names and no List field, and whose visited
names are neither reserved nor another visited name followed by `_filter` or `_order`. -/
theorem newGraphQLSchema_ok {g : SchemaGraph}
    (hl : ∀ p ∈ g.order, ∀ f ∈ (g.node p).table.fields, f.type ≠ .list)
    (hv : ∀ p ∈ g.order, validName (g.name p) ∧ ∀ f ∈ (g.node p).table.fields, validName f.name)
    (hfree : ∀ x ∈ g.order.map g.name, x ∉ reservedTypeNames ∧
      ∀ y ∈ g.order.map g.name, x ≠ y ++ "_filter" ∧ x ≠ y ++ orderByType) :
    ∃ s, schemaConfig g = some s ∧ newGraphQLSchema g = some (.ok s) := by
  obtain ⟨s, hs⟩ := Option.isSome_iff_exists.mp (schemaConfig_isSome.mpr hl)
  refine ⟨s, hs, ?_⟩
  cases s with
  | empty => simp [newGraphQLSchema, hs]
  | ofConfig query fields =>
    obtain ⟨rfl, -, -⟩ := schemaConfig_lookup hs
    simp [newGraphQLSchema, hs, NewSchema_ok (configOK_of_schemaConfig hs hv hfree)]

end Bubbly
