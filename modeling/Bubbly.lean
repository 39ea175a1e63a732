import Bubbly.Schema
import Bubbly.Graph.Node
import Bubbly.Graph.Build
import Bubbly.Graph.Traverse
import Bubbly.Graph.Shape
import Bubbly.Graph.FromMap
import Bubbly.GraphQL.Types
import Bubbly.GraphQL.Build
import Bubbly.GraphQL.Passes
import Bubbly.GraphQL.Filter
import Bubbly.GraphQL.Names
import Bubbly.GraphQL.Edges
import Bubbly.GraphQL.NewSchema
import Bubbly.GraphQL.Accepted
import Bubbly.GraphQL.Coverage
import Bubbly.Worker.ImplicitIDs
import Bubbly.Parser.Cty
import Bubbly.Parser.SymbolTable
import Bubbly.Graph.Fields
import Bubbly.Worker.Run
import Bubbly.Api.Importer
import Bubbly.Worker.Store
import Bubbly.Cmd.Apply
import Bubbly.GraphQL.Literal
