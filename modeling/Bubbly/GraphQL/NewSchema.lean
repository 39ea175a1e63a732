import Bubbly.GraphQL.Passes

/-!
# `graphql.NewSchema`

`newGraphQLSchema` ends with `graphql.NewSchema(cfg)` of `graphql-go` v0.7.9, which is not among
the sources. This module models what it does with the config the builder makes, a query object
that refers to the tables' objects:

* `graphql.NewObject` rejects an empty or invalid name (`NameRegExp`), and leaves the object
  unnamed (`Object.typeName`).
* `NewSchema` returns the query object's error, then walks the named types with
  `typeMapReducer`, from the query object and then from the introspection type `__Schema`. A
  type with an empty name is skipped. A name already mapped to another type is an error; one
  mapped to the same type ends that branch of the walk. Otherwise the name is mapped, the fields of
  an object or input object are defined (`defineFieldMap`, which rejects an empty field map, a
  field whose type has an error, and an invalid field or argument name), and the walk goes on into
  the types of each field's arguments and of the field itself.
* Types are compared by pointer. The builder keeps one object per table in its `fields` map, so
  an object is its table's name (`NamedType.object`); it makes one filter and one order input
  object per table, so an input object is compared by value.

**Fuel.** Each level of the walk maps a name that was not mapped, so its depth is bounded by
the number of named types of the config (`configTypes`); `typeMapFuel` is one more. Out of fuel
the model returns `none`, so a theorem that `NewSchema` returns proves the fuel enough.

**Theorem (`NewSchema_ok`).** On a config whose names are valid, whose fields refer only to
stored objects and whose named types have distinct names, `NewSchema` returns the schema of
the config. The walk keeps the invariant that every mapped name holds a type of the config of
that name (`MapsInto`); every mapped name then has its type, and the fuel covers the names still
unmapped (`typeMapReducer_ok`).
-/

namespace Bubbly

open GraphQL

/-! ## Names and errors -/

def invalidNameMsg (name : String) : String :=
  "Names must match /^[_a-zA-Z][_a-zA-Z0-9]*$/ but \"" ++ name ++ "\" does not."

def assertValidName (name : String) : ExceptT String Option Unit :=
  if validName name then pure () else throw (invalidNameMsg name)

/-- The error `graphql.NewObject` records for an object's name. -/
def newObjectErr (name : String) : Option String :=
  if name = "" then some "Type must be named." else
    if validName name then none else some (invalidNameMsg name)

/-- The error of `typeMapReducer` on a name two types share. -/
def duplicateTypeMsg (name : String) : String :=
  "Schema must contain unique named types but contains multiple types named \"" ++ name ++ "\"."

/-- The error of `defineFieldMap` on an empty field map, after the type's name. -/
def emptyFieldsMsg : String :=
  " fields must be an object with field names as keys or a function which return such an object."

theorem validName_ne_empty {name : String} (h : validName name) : name ≠ "" := by
  rintro rfl
  exact absurd h (by decide)

theorem newObjectErr_eq_none {name : String} (h : validName name) : newObjectErr name = none := by
  simp [newObjectErr, validName_ne_empty h, h]

@[simp] theorem typeName_of_validName {o : Object} (h : validName o.name) : o.typeName = o.name :=
  if_pos h

/-! ## Named types -/

/-- A named type `NewSchema` meets: the query object, the object the `fields` map holds for a
table, an input object, a scalar, an enum, or an introspection type. -/
inductive NamedType
  | query
  | object (table : String)
  | inputObject (o : InputObject)
  | scalar (s : Scalar)
  | enum (name : String)
  | introspection (name : String)
  deriving DecidableEq

def GraphQL.Output.namedType : Output → NamedType
  | .scalar s => .scalar s
  | .object u => .object u
  | .list o => o.namedType

/-- The named type of an input type, through lists. A named input type is, in the input objects
the builder makes, the `Order` enum. -/
def GraphQL.InputType.namedType : InputType → NamedType
  | .scalar s => .scalar s
  | .named n => .enum n
  | .list t => t.namedType

def GraphQL.ArgType.namedType : ArgType → NamedType
  | .input t => t.namedType
  | .inputObject o => .inputObject o

def GraphQL.ArgType.inputObject? : ArgType → Option NamedType
  | .input _ => none
  | .inputObject o => some (.inputObject o)

def GraphQL.Field.refs (f : Field) : List NamedType :=
  f.args.entries.map (·.2.namedType) ++ [f.type.namedType]

def GraphQL.Object.refs (o : Object) : List NamedType :=
  o.fields.entries.flatMap (·.2.refs)

/-- The introspection types, `__Schema` and those its fields reach. -/
def introspectionTypes : List String :=
  ["__Schema", "__Type", "__TypeKind", "__Field", "__InputValue", "__EnumValue", "__Directive",
    "__DirectiveLocation"]

/-- The types the fields of an introspection type refer to, in one order `range` may take. -/
def introspectionRefs : String → List NamedType
  | "__Schema" => [.introspection "__Type", .introspection "__Directive"]
  | "__Type" => [.introspection "__TypeKind", .scalar .string, .scalar .boolean,
      .introspection "__Field", .introspection "__Type", .introspection "__EnumValue",
      .introspection "__InputValue"]
  | "__Field" => [.scalar .string, .introspection "__InputValue", .introspection "__Type",
      .scalar .boolean]
  | "__InputValue" => [.scalar .string, .introspection "__Type"]
  | "__EnumValue" => [.scalar .string, .scalar .boolean]
  | "__Directive" => [.scalar .string, .introspection "__DirectiveLocation",
      .introspection "__InputValue", .scalar .boolean]
  | _ => []

/-! ## The walk -/

/-- What `typeMapReducer` reads of a type: its name, the definition of its fields, which may
fail, and the types its fields' arguments and fields refer to, in turn. -/
structure TypeNode (T : Type) where
  name : String
  define : ExceptT String Option Unit
  refs : List T

section Reducer

variable {T : Type} [DecidableEq T] (node : T → ExceptT String Option (TypeNode T))

/-- `typeMapReducer`, with fuel. -/
def typeMapReducer : Nat → GoMap T → T → ExceptT String Option (GoMap T)
  | 0, _, _ => ExceptT.lift none
  | fuel + 1, typeMap, t => do
    let n ← node t
    if n.name = "" then return typeMap
    match typeMap.lookup n.name with
    | some t' => if t' = t then return typeMap else throw (duplicateTypeMsg n.name)
    | none =>
      n.define
      n.refs.foldlM (typeMapReducer fuel) (typeMap.insert n.name t)

variable (name : T → String) (U : List T)

/-- Every name of the type map holds a type of `U` of that name. -/
def MapsInto (m : GoMap T) : Prop :=
  ∀ k t, m.lookup k = some t → t ∈ U ∧ name t = k

def Extends (m m' : GoMap T) : Prop :=
  ∀ k t, m.lookup k = some t → m'.lookup k = some t

variable {name U}

omit [DecidableEq T] in
theorem length_keys_le {m : GoMap T} (h : MapsInto name U m) : m.keys.length ≤ U.length := by
  have hsub : m.keys ⊆ U.map name := fun k hk => by
    obtain ⟨t, ht⟩ := Option.isSome_iff_exists.mp (AList.lookup_isSome.mpr (AList.mem_keys.mpr hk))
    obtain ⟨htU, rfl⟩ := h k t ht
    exact List.mem_map_of_mem _ htU
  simpa using (List.subperm_of_subset m.keys_nodup hsub).length_le

omit [DecidableEq T] in
theorem length_keys_le_of_extends {m m' : GoMap T} (h : Extends m m') :
    m.keys.length ≤ m'.keys.length :=
  (List.subperm_of_subset m.keys_nodup fun k hk => by
    obtain ⟨t, ht⟩ := Option.isSome_iff_exists.mp (AList.lookup_isSome.mpr (AList.mem_keys.mpr hk))
    exact AList.mem_keys.mp (AList.lookup_isSome.mp (by simp [h k t ht]))).length_le

theorem foldlM_typeMapReducer_ok {fuel : Nat}
    (ih : ∀ m t, MapsInto name U m → t ∈ U → U.length < m.keys.length + fuel →
      ∃ m', typeMapReducer node fuel m t = pure m' ∧ MapsInto name U m' ∧ Extends m m') :
    ∀ ts : List T, ts ⊆ U → ∀ m, MapsInto name U m → U.length < m.keys.length + fuel →
      ∃ m', ts.foldlM (typeMapReducer node fuel) m = pure m' ∧ MapsInto name U m' ∧
        Extends m m'
  | [], _, m, hm, _ => ⟨m, rfl, hm, fun _ _ => id⟩
  | t :: ts, hts, m, hm, hlen => by
    obtain ⟨m₁, h₁, hm₁, he₁⟩ := ih m t hm (hts (List.mem_cons_self _ _)) hlen
    have hlen₁ := length_keys_le_of_extends he₁
    obtain ⟨m', h', hm', he'⟩ := foldlM_typeMapReducer_ok ih ts
      (fun x hx => hts (List.mem_cons_of_mem _ hx)) m₁ hm₁ (by omega)
    exact ⟨m', by simp only [List.foldlM_cons, h₁, pure_bind, h'], hm',
      fun k v hv => he' k v (he₁ k v hv)⟩

variable (hnode : ∀ t ∈ U, ∃ refs ⊆ U, node t = pure ⟨name t, pure (), refs⟩)
  (hinj : ∀ a ∈ U, ∀ b ∈ U, name a = name b → a = b)

include hnode hinj

/-- **The walk returns.** From a map into `U`, a walk from a type of `U` with fuel beyond the
names still unmapped returns a map into `U` that extends it. -/
theorem typeMapReducer_ok : ∀ fuel m t, MapsInto name U m → t ∈ U →
    U.length < m.keys.length + fuel →
      ∃ m', typeMapReducer node fuel m t = pure m' ∧ MapsInto name U m' ∧ Extends m m'
  | 0, m, _, hm, _, hlen => absurd hlen (by have := length_keys_le hm; omega)
  | fuel + 1, m, t, hm, ht, hlen => by
    obtain ⟨refs, hrefs, hn⟩ := hnode t ht
    simp only [typeMapReducer, hn, pure_bind]
    split_ifs with h0
    · exact ⟨m, rfl, hm, fun _ _ => id⟩
    rcases hl : m.lookup (name t) with _ | t'
    · have hm₁ : MapsInto name U (m.insert (name t) t) := fun k v hv => by
        by_cases hk : k = name t
        · subst hk
          rw [AList.lookup_insert, Option.some.injEq] at hv
          exact hv ▸ ⟨ht, rfl⟩
        · exact hm k v (by rwa [AList.lookup_insert_ne hk] at hv)
      have hfresh : name t ∉ m.keys := fun h => by
        rw [← AList.mem_keys, ← AList.lookup_isSome, hl] at h
        cases h
      have hlen₁ : U.length < (m.insert (name t) t).keys.length + fuel := by
        rw [AList.keys_insert, List.length_cons, List.erase_of_not_mem hfresh]
        omega
      obtain ⟨m', h', hm', he'⟩ := foldlM_typeMapReducer_ok node
        (typeMapReducer_ok fuel) refs hrefs _ hm₁ hlen₁
      refine ⟨m', by simp only [h', pure_bind], hm', fun k v hv => he' k v ?_⟩
      rwa [AList.lookup_insert_ne fun hk => by rw [hk, hl] at hv; cases hv]
    · obtain ⟨ht', hname⟩ := hm _ _ hl
      obtain rfl := hinj t' ht' t ht hname
      exact ⟨m, by simp, hm, fun _ _ => id⟩

end Reducer

/-! ## `NewSchema` -/

section Config

variable (query : Object) (fields : GoMap GqlField)

/-- `Error()` of a field's type: a list or a scalar has none; an object has the error
`NewObject` recorded, and a table with no stored object is a nil object, on which it panics. -/
def outputErr : Output → ExceptT String Option Unit
  | .object u => match fields.lookup u with
    | none => ExceptT.lift none
    | some field => match newObjectErr field.type.name with
      | some e => throw e
      | none => pure ()
  | _ => pure ()

/-- `defineFieldMap` of an object: a non-empty field map, each field of a type without error,
with a valid name and arguments of valid names. -/
def defineFieldMap (o : Object) : ExceptT String Option Unit := do
  if o.fields.entries.isEmpty then throw (o.typeName ++ emptyFieldsMsg)
  o.fields.entries.forM fun f => do
    outputErr fields f.2.type
    assertValidName f.1
    f.2.args.entries.forM fun a => assertValidName a.1

/-- `defineFieldMap` of an input object: a non-empty field map with valid names. -/
def GraphQL.InputObject.defineFieldMap (o : InputObject) : ExceptT String Option Unit := do
  if o.fields.entries.isEmpty then throw (o.name ++ emptyFieldsMsg)
  o.fields.entries.forM fun f => assertValidName f.1

/-- What the walk reads of each named type of the config. -/
def namedTypeNode : NamedType → ExceptT String Option (TypeNode NamedType)
  | .query => pure ⟨query.typeName, defineFieldMap fields query, query.refs⟩
  | .object u => match fields.lookup u with
    | none => ExceptT.lift none
    | some field => pure ⟨field.type.typeName, defineFieldMap fields field.type, field.type.refs⟩
  | .inputObject o => pure ⟨o.name, o.defineFieldMap, o.fields.entries.map (·.2.namedType)⟩
  | .scalar s => pure ⟨s.name, pure (), []⟩
  | .enum n => pure ⟨n, pure (), []⟩
  | .introspection n => pure ⟨n, pure (), introspectionRefs n⟩

/-- The named types every config shares: the four scalars, the `Order` enum and the
introspection types. -/
def sharedTypes : List NamedType :=
  [.scalar .boolean, .scalar .int, .scalar .string, .scalar .map, .enum enumOrderBy] ++
    introspectionTypes.map .introspection

/-- The named types of the config: the query object, the shared types, and the object of each
stored table followed by the input objects of its arguments. -/
def configTypes : List NamedType :=
  .query :: (sharedTypes ++ fields.entries.flatMap fun e =>
    .object e.1 :: e.2.args.entries.filterMap (·.2.inputObject?))

def typeMapFuel : Nat :=
  (configTypes fields).length + 1

/-- `graphql.NewSchema` of the config of the query object `query`, whose objects the `fields` map
holds: the query object's error, or the walk from the query object and from `__Schema`. -/
def NewSchema : ExceptT String Option GraphQLSchema := do
  if let some e := newObjectErr query.name then throw e
  let _ ← [NamedType.query, .introspection "__Schema"].foldlM
    (typeMapReducer (namedTypeNode query fields) (typeMapFuel fields)) ∅
  return .ofConfig query fields

end Config

/-! ## Configs on which `NewSchema` returns -/

theorem forM_eq_pure {α : Type} {l : List α} {f : α → ExceptT String Option PUnit}
    (h : ∀ x ∈ l, f x = pure ⟨⟩) : l.forM f = pure ⟨⟩ := by
  induction l with
  | nil => rfl
  | cons x l ih =>
    rw [List.forM_cons', h x (List.mem_cons_self _ _), pure_bind,
      ih fun y hy => h y (List.mem_cons_of_mem _ hy)]

theorem assertValidName_eq_pure {name : String} (h : validName name) :
    assertValidName name = pure () :=
  if_pos h

/-- An input object as the builder makes them: fields with valid names, each of a scalar, a list
of one, or the `Order` enum. -/
def InputOK (o : InputObject) : Prop :=
  o.fields.entries ≠ [] ∧ ∀ m ∈ o.fields.entries, validName m.1 ∧ m.2.namedType ∈ sharedTypes

/-- An argument set as the builder makes them: arguments with valid names, each of a shared type
or of an input object as above. -/
def ArgsOK (args : FieldConfigArgument) : Prop :=
  ∀ a ∈ args.entries, validName a.1 ∧
    (a.2.namedType ∈ sharedTypes ∨ ∃ o, a.2 = .inputObject o ∧ InputOK o)

/-- A field of a stored object as the builder makes them: a scalar field without arguments, or
the field of an edge, of a stored object or a list of one, taking that table's arguments. -/
def FieldOK (fields : GoMap GqlField) (f : Field) : Prop :=
  (∃ s, f.type = .scalar s ∧ f.args = ∅) ∨
    ∃ u field, fields.lookup u = some field ∧ (f.type = .object u ∨ f.type = .list (.object u)) ∧
      f.args = field.args

def configTypeName (fields : GoMap GqlField) : NamedType → String
  | .query => "query"
  | .object u => ((fields.lookup u).map (·.type.typeName)).getD ""
  | .inputObject o => o.name
  | .scalar s => s.name
  | .enum n => n
  | .introspection n => n

/-- A config on which `NewSchema` returns: some stored table; every stored object named by its
valid key, with a non-empty field map of valid names and fields as the builder makes them; every
argument set as the builder makes them; and named types of distinct names. -/
structure ConfigOK (fields : GoMap GqlField) : Prop where
  nonempty : fields.entries ≠ []
  name : ∀ k field, fields.lookup k = some field → field.type.name = k ∧ validName k
  objectFields : ∀ k field, fields.lookup k = some field →
    field.type.fields.entries ≠ [] ∧ ∀ f ∈ field.type.fields.entries, validName f.1 ∧ FieldOK fields f.2
  args : ∀ k field, fields.lookup k = some field → ArgsOK field.args
  distinct : ∀ a ∈ configTypes fields, ∀ b ∈ configTypes fields,
    configTypeName fields a = configTypeName fields b → a = b

/-- The shared types are read without error, and refer only to shared types. -/
theorem sharedType_node (query : Object) (fields : GoMap GqlField) :
    ∀ t ∈ sharedTypes, ∃ refs ⊆ sharedTypes,
      namedTypeNode query fields t = pure ⟨configTypeName fields t, pure (), refs⟩ := by
  simp only [sharedTypes, introspectionTypes, List.map_cons, List.map_nil, List.cons_append,
    List.nil_append, List.mem_cons, List.not_mem_nil, or_false]
  rintro t (rfl | rfl | rfl | rfl | rfl | rfl | rfl | rfl | rfl | rfl | rfl | rfl | rfl) <;>
    exact ⟨_, by decide, rfl⟩

section ConfigOK

variable {fields : GoMap GqlField} (h : ConfigOK fields)
include h

theorem mem_configTypes_of_args {k : String} {field : GqlField} (hk : fields.lookup k = some field)
    {a : Sigma fun _ : String => ArgType} (ha : a ∈ field.args.entries) :
    a.2.namedType ∈ configTypes fields := by
  rcases (h.args k field hk a ha).2 with hs | ⟨o, ho, -⟩
  · exact List.mem_cons_of_mem _ (List.mem_append_left _ hs)
  · refine List.mem_cons_of_mem _ (List.mem_append_right _ (List.mem_flatMap.mpr
      ⟨⟨k, field⟩, AList.mem_lookup_iff.mp hk, List.mem_cons_of_mem _ (List.mem_filterMap.mpr
        ⟨a, ha, ?_⟩)⟩))
    rw [ho]
    rfl

omit h in
theorem object_mem_configTypes {k : String} {field : GqlField} (hk : fields.lookup k = some field) :
    NamedType.object k ∈ configTypes fields :=
  List.mem_cons_of_mem _ (List.mem_append_right _ (List.mem_flatMap.mpr
    ⟨⟨k, field⟩, AList.mem_lookup_iff.mp hk, List.mem_cons_self _ _⟩))

theorem forM_args_eq_pure {k : String} {field : GqlField} (hk : fields.lookup k = some field) :
    field.args.entries.forM (fun a => assertValidName a.1) = pure ⟨⟩ :=
  forM_eq_pure fun a ha => assertValidName_eq_pure (h.args k field hk a ha).1

omit h in
theorem shared_mem_configTypes {t : NamedType} (ht : t ∈ sharedTypes) :
    t ∈ configTypes fields :=
  List.mem_cons_of_mem _ (List.mem_append_left _ ht)

/-- The query object's fields: one per stored table, under its valid name. -/
theorem mem_queryObject {f : Sigma fun _ : String => Field}
    (hf : f ∈ (queryObject fields).fields.entries) :
    validName f.1 ∧ ∃ field, fields.lookup f.1 = some field ∧
      f.2 = ⟨.list (.object f.1), field.args⟩ := by
  have hmem : f.1 ∈ (queryObject fields).fields := AList.mem_keys.mpr (List.mem_map_of_mem _ hf)
  simp only [queryObject, mem_foldl_insert, AList.not_mem_empty, or_false] at hmem
  obtain ⟨e, he, hname⟩ := hmem
  obtain ⟨hek, hv⟩ := h.name e.1 e.2 (AList.mem_lookup_iff.mpr he)
  rw [typeName_of_validName (hek ▸ hv), hek] at hname
  have hv' : validName f.1 := hname ▸ hv
  have hq := lookup_queryObject (fun k field hk => (h.name k field hk).1) hv'
  rw [AList.mem_lookup_iff.mpr hf] at hq
  rcases hl : fields.lookup f.1 with _ | field
  · rw [hl] at hq
    cases hq
  · rw [hl, Option.map_some', Option.some.injEq] at hq
    exact ⟨hv', field, rfl, hq⟩

theorem queryObject_ne_nil : (queryObject fields).fields.entries ≠ [] := by
  obtain ⟨e, he⟩ := List.exists_mem_of_ne_nil _ h.nonempty
  have hv := (h.name e.1 e.2 (AList.mem_lookup_iff.mpr he)).2
  have hmem : e.2.type.typeName ∈ (queryObject fields).fields := by
    simp only [queryObject, mem_foldl_insert]
    exact .inl ⟨e, he, rfl⟩
  intro hnil
  rw [AList.mem_keys, AList.keys, hnil] at hmem
  cases hmem

theorem query_node_ok : ∃ refs ⊆ configTypes fields,
    namedTypeNode (queryObject fields) fields .query =
      pure ⟨configTypeName fields .query, pure (), refs⟩ := by
  refine ⟨(queryObject fields).refs, fun r hr => ?_, ?_⟩
  · obtain ⟨f, hf, hr⟩ := List.mem_flatMap.mp hr
    obtain ⟨-, field, hk, hf2⟩ := mem_queryObject h hf
    rw [hf2, Field.refs, List.mem_append, List.mem_map, List.mem_singleton] at hr
    rcases hr with ⟨a, ha, rfl⟩ | rfl
    · exact mem_configTypes_of_args h hk ha
    · exact object_mem_configTypes hk
  · have hd : defineFieldMap fields (queryObject fields) = pure () := by
      rw [defineFieldMap, if_neg (by simpa using queryObject_ne_nil h), pure_bind]
      refine forM_eq_pure fun f hf => ?_
      obtain ⟨hv, field, hk, hf2⟩ := mem_queryObject h hf
      rw [hf2]
      simp only [outputErr, assertValidName_eq_pure hv, pure_bind]
      exact forM_args_eq_pure h hk
    simp only [namedTypeNode, hd]
    rfl

theorem object_node_ok {k : String} {field : GqlField} (hk : fields.lookup k = some field) :
    ∃ refs ⊆ configTypes fields, namedTypeNode (queryObject fields) fields (.object k) =
      pure ⟨configTypeName fields (.object k), pure (), refs⟩ := by
  obtain ⟨hne, hfs⟩ := h.objectFields k field hk
  refine ⟨field.type.refs, fun r hr => ?_, ?_⟩
  · obtain ⟨f, hf, hr⟩ := List.mem_flatMap.mp hr
    rw [Field.refs, List.mem_append, List.mem_map, List.mem_singleton] at hr
    rcases (hfs f hf).2 with ⟨sc, hty, hargs⟩ | ⟨u, fu, hu, hty, hargs⟩
    · rcases hr with ⟨a, ha, -⟩ | rfl
      · rw [hargs] at ha
        cases ha
      · rw [hty]
        exact shared_mem_configTypes (by cases sc <;> decide)
    · rcases hr with ⟨a, ha, rfl⟩ | rfl
      · rw [hargs] at ha
        exact mem_configTypes_of_args h hu ha
      · rcases hty with hty | hty <;> rw [hty] <;> exact object_mem_configTypes hu
  · have hd : defineFieldMap fields field.type = pure () := by
      rw [defineFieldMap, if_neg (by simpa using hne), pure_bind]
      refine forM_eq_pure fun f hf => ?_
      obtain ⟨hv, hfo⟩ := hfs f hf
      rcases hfo with ⟨sc, hty, hargs⟩ | ⟨u, fu, hu, hty, hargs⟩
      · simp only [hty, hargs, outputErr, assertValidName_eq_pure hv, pure_bind]
        rfl
      · obtain ⟨hname, hvu⟩ := h.name u fu hu
        have ho : outputErr fields f.2.type = pure () := by
          rcases hty with hty | hty <;>
            simp only [hty, outputErr, hu, newObjectErr_eq_none (hname ▸ hvu)]
        simp only [ho, assertValidName_eq_pure hv, pure_bind, hargs]
        exact forM_args_eq_pure h hu
    simp only [namedTypeNode, hk, hd, configTypeName, Option.map_some', Option.getD_some]

theorem inputObject_node_ok {k : String} {field : GqlField} (hk : fields.lookup k = some field)
    {a : Sigma fun _ : String => ArgType} (ha : a ∈ field.args.entries) {o : InputObject}
    (hat : a.2 = .inputObject o) :
    ∃ refs ⊆ configTypes fields, namedTypeNode (queryObject fields) fields (.inputObject o) =
      pure ⟨configTypeName fields (.inputObject o), pure (), refs⟩ := by
  obtain ⟨hne, hms⟩ : InputOK o := by
    rcases (h.args k field hk a ha).2 with hs | ⟨o', ho', hok⟩
    · rw [hat] at hs
      exact absurd hs (by simp [ArgType.namedType, sharedTypes, introspectionTypes])
    · rw [hat] at ho'
      cases ho'
      exact hok
  refine ⟨o.fields.entries.map (·.2.namedType), fun r hr => ?_, ?_⟩
  · obtain ⟨m, hm, rfl⟩ := List.mem_map.mp hr
    exact shared_mem_configTypes (hms m hm).2
  · have hd : o.defineFieldMap = pure () := by
      rw [InputObject.defineFieldMap, if_neg (by simpa using hne), pure_bind]
      exact forM_eq_pure fun m hm => assertValidName_eq_pure (hms m hm).1
    simp only [namedTypeNode, hd, configTypeName]

/-- **Every named type of the config is read without error**, with its refs among the config's
types. -/
theorem namedTypeNode_ok : ∀ t ∈ configTypes fields, ∃ refs ⊆ configTypes fields,
    namedTypeNode (queryObject fields) fields t = pure ⟨configTypeName fields t, pure (), refs⟩ := by
  intro t ht
  simp only [configTypes, List.mem_cons, List.mem_append, List.mem_flatMap] at ht
  rcases ht with rfl | hs | ⟨e, he, rfl | hio⟩
  · exact query_node_ok h
  · exact (sharedType_node _ _ t hs).imp fun refs ⟨hr, hn⟩ =>
      ⟨fun r h' => shared_mem_configTypes (hr h'), hn⟩
  · exact object_node_ok h (AList.mem_lookup_iff.mpr he)
  · obtain ⟨a, ha, hio⟩ := List.mem_filterMap.mp hio
    cases hat : a.2 with
    | input _ => rw [hat] at hio; cases hio
    | inputObject o =>
      rw [hat] at hio
      cases hio
      exact inputObject_node_ok h (AList.mem_lookup_iff.mpr he) ha hat

/-- **`NewSchema` returns** the schema of a config as the builder makes them. -/
theorem NewSchema_ok :
    NewSchema (queryObject fields) fields = pure (.ofConfig (queryObject fields) fields) := by
  have hroots : [NamedType.query, .introspection "__Schema"] ⊆ configTypes fields := by
    intro t ht
    rcases List.mem_pair.mp ht with rfl | rfl
    · exact List.mem_cons_self _ _
    · exact shared_mem_configTypes (by decide)
  obtain ⟨m, hm, -⟩ := foldlM_typeMapReducer_ok _
    (typeMapReducer_ok _ (namedTypeNode_ok h) h.distinct (typeMapFuel fields)) _ hroots ∅
    (fun k t hk => by simp at hk) (by simp [typeMapFuel])
  have hq : newObjectErr (queryObject fields).name = none := rfl
  simp only [NewSchema, hq, hm, pure_bind]

end ConfigOK

/-- `newGraphQLSchema`: the empty schema for a graph without roots, otherwise `graphql.NewSchema`
of the config the two traversals build; `none` where the builder or `NewSchema` panics. -/
def newGraphQLSchema (graph : SchemaGraph) : Option (Except String GraphQLSchema) :=
  (schemaConfig graph).bind fun
    | .empty => some (.ok .empty)
    | .ofConfig query fields => (NewSchema query fields).run

end Bubbly
