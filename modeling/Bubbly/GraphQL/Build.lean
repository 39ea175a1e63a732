import Bubbly.GraphQL.Types
import Bubbly.Graph.Traverse

/-!
# The GraphQL schema builder

`newGraphQLSchema` turns a schema graph into a GraphQL schema config in two traversals of the
graph, and hands it to `graphql.NewSchema` (modelled in `Bubbly.GraphQL.NewSchema`). The first
traversal (`addGraphFields`) stores, for each table it visits, an object type with one field per
declared field plus `_id`, and the table's argument set: an equality argument per field plus
`_id`, a `filter` input object (`graphQLFilterType`), an `order_by` input object
(`graphQLOrderType`), `filter_on`, `first` and `last`. The second (`addGraphEdges`) adds to a
table's object one field per edge, named after the edge's target. The query object then has one
field per stored table. `schemaConfig` is this part, up to the call of `NewSchema`.

**Panics.** `graphQLFieldType` panics on a field type it cannot convert, and `AddFieldConfig`
on a nil object; the model returns `none` there. The message of the first shows the field's
full `cty` type, which the schema model does not carry, so it is left out.

`schemaConfig_eq` restates the builder over `Traverse`'s visit order: both passes are folds over
`order`, and the later modules read the config off those folds.
-/

namespace Bubbly

open GraphQL

/-! ## Types of fields and arguments -/

/-- `mapScalar`: the scalar that Object and Map fields take. -/
def mapScalar : Scalar := .map

/-- `enumOrderBy`, by its name: the enum an `order_by` member takes (its values `asc` and `desc`
are read by no modelled function). -/
def enumOrderBy : String := "Order"

/-- `graphQLFieldType`: the GraphQL scalar of a field's type; `none` where the code panics, on a
List field. -/
def graphQLFieldType (f : TableField) : Option Scalar :=
  match f.type with
  | .bool => some .boolean
  | .number => some .int
  | .string => some .string
  | .object => some mapScalar
  | .map => some mapScalar
  | .list => none

/-- Modelled from the spec: `tableIDField`, declared outside the sources; the spec names the
implicit identifier `_id`. -/
def tableIDField : String := "_id"

def filterID : String := "filter"

def filterOnID : String := "filter_on"

def firstID : String := "first"

def lastID : String := "last"

def orderByID : String := "order_by"

def orderByType : String := "_order"

/-- `scalarFilters`: the comparison operators. -/
def scalarFilters : List String := ["_gt", "_lt", "_gte", "_lte"]

/-- `listFilters`: the membership operators. -/
def listFilters : List String := ["_in", "_not_in"]

/-- `graphQLOrderType`: an input object named after the table with `_order`, with a field of
type `Order` for each field it is given. -/
def graphQLOrderType (typeName : String) (args : GoMap Field) : InputObject :=
  ⟨typeName ++ orderByType,
    args.entries.foldl (fun fields n => fields.insert n.1 (.named enumOrderBy)) ∅⟩

/-- `numFields` of `graphQLFilterType`: the capacity it gives its field map, which its comment
says is the size of that map. -/
def filterNumFields (args : FieldConfigArgument) : Nat :=
  (scalarFilters.length + listFilters.length) * args.entries.length

/-- `graphQLFilterType`: an input object named after the table with `_filter`, with, for each
argument `n` and operator `f`, a field `n ++ f` of the argument's type, or of a list of it for
the membership operators. -/
def graphQLFilterType (typeName : String) (args : FieldConfigArgument) : InputObject :=
  ⟨typeName ++ "_filter", args.entries.foldl (fun fields a =>
    let fields := scalarFilters.foldl (fun fields f => fields.insert (a.1 ++ f) a.2.ref) fields
    listFilters.foldl (fun fields f => fields.insert (a.1 ++ f) (.list a.2.ref)) fields) ∅⟩

/-! ## The two passes -/

/-- `gqlField`: a table's object type and its argument set. -/
structure GqlField where
  type : Object
  args : FieldConfigArgument

/-- One turn of `addGraphFields`'s loop over the table's fields: the field's scalar, as a field
of the object and as an equality argument. -/
def addFieldArg (acc : GoMap Field × FieldConfigArgument) (f : TableField) :
    Option (GoMap Field × FieldConfigArgument) :=
  (graphQLFieldType f).map fun ft =>
    (acc.1.insert f.name ⟨.scalar ft, ∅⟩, acc.2.insert f.name (.input (.scalar ft)))

/-- The `gqlField` that `addGraphFields` builds for a table. -/
def tableGqlField (t : Table) : Option GqlField := do
  let (typeFields, args) ← t.fields.foldlM addFieldArg (∅, ∅)
  let typeFields := typeFields.insert tableIDField ⟨.scalar .string, ∅⟩
  let args := args.insert tableIDField (.input (.scalar .string))
  let args := args.insert filterID (.inputObject (graphQLFilterType t.name args))
  let args := args.insert orderByID (.inputObject (graphQLOrderType t.name typeFields))
  let args := args.insert filterOnID (.input (.scalar .boolean))
  let args := args.insert firstID (.input (.scalar .int))
  let args := args.insert lastID (.input (.scalar .int))
  pure ⟨⟨t.name, typeFields⟩, args⟩

/-- `addGraphFields`: store the table's `gqlField` under its name. (The entry it reads first,
`fields[t.Name]`, has both its parts overwritten.) -/
def addGraphFields (t : Table) (fields : GoMap GqlField) : Option (GoMap GqlField) :=
  (tableGqlField t).map (fields.insert t.name)

/-- The arguments stored for a table; a miss reads the nil map. -/
def argsOf (fields : GoMap GqlField) (x : String) : FieldConfigArgument :=
  ((fields.lookup x).map (·.args)).getD ∅

/-- The field `addGraphEdges` adds for an edge: the target's object type, a list of it unless the
edge is scalar, taking the target's arguments. -/
def edgeField (heap : List SchemaNode) (fields : GoMap GqlField) (edge : SchemaEdge) : Field :=
  let dst := nameOf heap edge.node
  ⟨if edge.isScalar then .object dst else .list (.object dst), argsOf fields dst⟩

/-- One turn of `addGraphEdges`'s loop: add to `n`'s object the field of one edge, named after
the edge's target. The object is updated in place, as Go mutates it through the pointer
`field.Type`; `none` where `n`'s table has no entry and `AddFieldConfig` is called on a nil
object. -/
def addEdgeField (heap : List SchemaNode) (n : SchemaNode) (fields : GoMap GqlField)
    (edge : SchemaEdge) : Option (GoMap GqlField) :=
  (fields.lookup n.table.name).map fun field => fields.insert n.table.name { field with
    type := field.type.addFieldConfig (nameOf heap edge.node) (edgeField heap fields edge) }

/-- `addGraphEdges`: add to `n`'s object a field per edge. -/
def addGraphEdges (heap : List SchemaNode) (n : SchemaNode) (fields : GoMap GqlField) :
    Option (GoMap GqlField) :=
  n.edges.foldlM (addEdgeField heap n) fields

/-- `NameRegExp` of `graphql-go`, `^[_a-zA-Z][_a-zA-Z0-9]*$`: the names it accepts. -/
def validName (name : String) : Bool :=
  match name.data with
  | [] => false
  | c :: cs => (c == '_' || c.isAlpha) && cs.all fun c => c == '_' || c.isAlphanum

/-- `Name()` of an object `graphql.NewObject` built: its name, or the empty name when
`NewObject` rejected the name and left the object unnamed. -/
def GraphQL.Object.typeName (o : Object) : String :=
  if validName o.name then o.name else ""

/-- The query object: for each stored table, a field named by its object's `Name()`, of a list of
that object, taking the table's arguments. -/
def queryObject (fields : GoMap GqlField) : Object :=
  ⟨"query", fields.entries.foldl (fun queryFields field =>
    queryFields.insert field.2.type.typeName ⟨.list (.object field.1), field.2.args⟩) ∅⟩

/-- A `graphql.Schema`: the empty `graphql.Schema{}`, or the schema of a config, a query object
whose object types the `fields` map holds by table name. -/
inductive GraphQLSchema
  | empty
  | ofConfig (query : Object) (fields : GoMap GqlField)

/-- What `newGraphQLSchema` builds before it calls `graphql.NewSchema`: the empty schema it
returns for a graph without roots; otherwise, after a traversal that adds every visited table's
fields and a second that adds its edges, the config of the query object. The errors of
`Traverse` are ignored, as the visitors return none. -/
def schemaConfig (graph : SchemaGraph) : Option GraphQLSchema :=
  if graph.nodes = [] then some .empty else
  match graph.traverse (fun fields p => .ok (fields.bind (addGraphFields (graph.node p).table)))
      (some ∅) with
  | some (.ok (some fields)) =>
    match graph.traverse
        (fun fields p => .ok (fields.bind (addGraphEdges graph.heap (graph.node p)))) (some fields)
      with
    | some (.ok (some fields)) => some (.ofConfig (queryObject fields) fields)
    | _ => none
  | _ => none

namespace GraphQLSchema

/-- The object type a schema holds for a table. -/
def object? : GraphQLSchema → String → Option Object
  | .empty, _ => none
  | .ofConfig _ fields, x => (fields.lookup x).map (·.type)

/-- The argument set a schema holds for a table. -/
def args? : GraphQLSchema → String → Option FieldConfigArgument
  | .empty, _ => none
  | .ofConfig _ fields, x => (fields.lookup x).map (·.args)

/-- The field of the query object named after a table. -/
def queryField? : GraphQLSchema → String → Option Field
  | .empty, _ => none
  | .ofConfig query _, x => query.fields.lookup x

/-- The names of the types the builder creates: the query object, the shared `Order` enum and
`Map` scalar, and for each table its object type and the input objects its `filter` and
`order_by` arguments take. -/
def typeNames : GraphQLSchema → List String
  | .empty => []
  | .ofConfig query fields => query.name :: enumOrderBy :: mapScalar.name ::
      fields.entries.flatMap fun field => field.2.type.name ::
        [filterID, orderByID].filterMap fun k => (field.2.args.lookup k).bind ArgType.inputObjectName?

end GraphQLSchema

/-! ## The builder over the visit order -/

/-- The first pass: `addGraphFields` on the table of every node `Traverse` visits, in turn. -/
def fieldsPass (graph : SchemaGraph) : Option (GoMap GqlField) :=
  graph.order.foldlM (fun fields p => addGraphFields (graph.node p).table fields) ∅

/-- The second pass: `addGraphEdges` on every node `Traverse` visits, in turn. -/
def edgesPass (graph : SchemaGraph) (fields : GoMap GqlField) : Option (GoMap GqlField) :=
  graph.order.foldlM (fun fields p => addGraphEdges graph.heap (graph.node p) fields) fields

/-- A visitor that never fails and threads a state that may panic folds as the plain state. -/
theorem foldlM_ok_bind {σ : Type} (f : Nat → σ → Option σ) (l : List Nat) (s : Option σ) :
    l.foldlM (m := Except String) (fun s p => .ok (s.bind (f p))) s =
      .ok (s.bind fun s => l.foldlM (fun s p => f p s) s) := by
  induction l generalizing s with
  | nil => cases s <;> rfl
  | cons p l ih =>
    rw [List.foldlM_cons]
    cases s <;> simp [ih, bind, Except.bind, Option.bind_assoc]

/-- **`schemaConfig` over the visit order.** Both traversals are folds over `order`. -/
theorem schemaConfig_eq (graph : SchemaGraph) :
    schemaConfig graph =
      if graph.nodes = [] then some .empty else
        ((fieldsPass graph).bind (edgesPass graph)).map
          fun fields => .ofConfig (queryObject fields) fields := by
  unfold schemaConfig
  split_ifs
  · rfl
  rw [SchemaGraph.traverse_eq, foldlM_ok_bind]
  simp only [Option.some_bind, Except.mapError]
  rcases h : fieldsPass graph with _ | fields
  · simp [fieldsPass] at h; simp [h]
  · simp only [fieldsPass] at h
    rw [h]
    dsimp only
    rw [SchemaGraph.traverse_eq, foldlM_ok_bind]
    simp only [Option.some_bind, Except.mapError]
    rcases h' : edgesPass graph fields with _ | fields'
    · simp [edgesPass] at h'; simp [h']
    · simp only [edgesPass] at h'; simp [h']

end Bubbly
