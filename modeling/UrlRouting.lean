import UrlRouting.Router.Operation
import UrlRouting.Proofs.Decimal.Integer
import UrlRouting.Proofs.Matching.Values
import UrlRouting.Proofs.Schema.Nested
import UrlRouting.Proofs.Tree.Overrides
import UrlRouting.Proofs.Consult
import UrlRouting.Proofs.Params.History
import UrlRouting.Proofs.Router.Registration
import UrlRouting.Proofs.Router.Questions
import UrlRouting.Proofs.Matching.Search
import UrlRouting.Proofs.Router.Reachable
import UrlRouting.Proofs.Router.Seal
import UrlRouting.Proofs.Router.Memory
import UrlRouting.Proofs.Matching.Order
import UrlRouting.Proofs.Matching.Groups
import UrlRouting.Proofs.Matching.Layers
import UrlRouting.Proofs.Router.FindRoute
import UrlRouting.Proofs.Router.Arguments
import UrlRouting.Proofs.Schema.Joining
import UrlRouting.Proofs.Matching.Nesting
import UrlRouting.Proofs.Matching.Chains
import UrlRouting.Proofs.Router.Nesting
import UrlRouting.Proofs.Url.Chains
import UrlRouting.Proofs.Matching.Rows
import UrlRouting.Proofs.Router.RoundTrip
import UrlRouting.Proofs.Schema.Space
import UrlRouting.Proofs.Schema.Tidy
import UrlRouting.Proofs.Schema.Printing
import UrlRouting.Proofs.Url.Written
import UrlRouting.Proofs.Router.Frozen
import UrlRouting.Proofs.Tree.Arena
import UrlRouting.Proofs.Tree.Links
import UrlRouting.Proofs.Router.Arena
import UrlRouting.Proofs.Router.Calls
import UrlRouting.Proofs.Router.Outcome
import UrlRouting.Proofs.Url.Matched
import UrlRouting.Proofs.Schema.Inside
import UrlRouting.Proofs.Schema.Openers
import UrlRouting.Proofs.Tree.Composed
import UrlRouting.Proofs.Tree.FullNames
import UrlRouting.Proofs.Schema.Faults
import UrlRouting.Proofs.Schema.Validators
import UrlRouting.Proofs.Url.Accounts
import UrlRouting.Proofs.Url.Consumption
import UrlRouting.Proofs.Url.Omission
import UrlRouting.Proofs.Tree.Without
import UrlRouting.Proofs.Router.Misfits
import UrlRouting.Proofs.Url.Decoding
import UrlRouting.Proofs.Url.Leaves
import UrlRouting.Proofs.Url.Marks
import UrlRouting.Proofs.Url.Undeclared
import UrlRouting.Proofs.Router.Trees
import UrlRouting.Proofs.Tree.Inherited
import UrlRouting.Proofs.Router.DistinctNames
import UrlRouting.Proofs.Url.Authority
import UrlRouting.Proofs.Matching.Omitted
import UrlRouting.Proofs.Router.SoleRoute
import UrlRouting.Proofs.Router.EmptyPath
import UrlRouting.Proofs.Schema.Mirror
import UrlRouting.Proofs.Schema.Numerals
import UrlRouting.Proofs.Router.Controllers
