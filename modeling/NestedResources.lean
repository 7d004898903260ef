import NestedResources.Gate.Rules
import NestedResources.Main
import NestedResources.Proofs.Filter.Meaning
import NestedResources.Proofs.Filter.WrittenOut
import NestedResources.Proofs.Store.Filed
import NestedResources.Proofs.Store.Order
import NestedResources.Store.Diff
import NestedResources.Proofs.Query.Embeds
import NestedResources.Proofs.Query.OfParams
import NestedResources.Proofs.Read.Nested
import NestedResources.Proofs.Read.Includes
import NestedResources.Proofs.Read.Attach
import NestedResources.Proofs.Read.Scoped
import NestedResources.Proofs.Read.Reading
import NestedResources.Proofs.Read.Visible
import NestedResources.Proofs.Service.NonInterference
import NestedResources.Proofs.Service.FailedWrite
import NestedResources.Proofs.Write.Lookup
import NestedResources.Proofs.Store.Cascade
import NestedResources.Proofs.Write.Consent
import NestedResources.Proofs.Service.Batch
import NestedResources.Proofs.Text
import NestedResources.Proofs.Store.Keyed
import NestedResources.Proofs.Store.Members
import NestedResources.Proofs.Store.Required
import NestedResources.Proofs.Service.RelationshipUpdate
import NestedResources.Proofs.Service.WriteBack
import NestedResources.Proofs.Service.ReadOnly
import NestedResources.Proofs.Service.DeleteMatching
import NestedResources.Proofs.Service.SoleMember
import NestedResources.Proofs.Store.Patch
import NestedResources.Proofs.Service.Options
import NestedResources.Proofs.Service.Paths
import NestedResources.Proofs.Service.Creation
import NestedResources.Proofs.Service.NestedCreate
import NestedResources.Proofs.Query.NodeCount
import NestedResources.Proofs.Service.Pages
import NestedResources.Proofs.Service.EmbeddedMembers
import NestedResources.Proofs.Service.PostedMember
import NestedResources.Proofs.Read.Compiling
import NestedResources.Proofs.Service.Concealed
import NestedResources.Proofs.Service.ParameterOrder
import NestedResources.Proofs.Service.SelfLink
import NestedResources.Proofs.Filter.Nesting
import NestedResources.Proofs.Store.Counted
import NestedResources.Proofs.Write.BothEnds
import NestedResources.Proofs.Write.Linking
import NestedResources.Proofs.Store.Numbering
import NestedResources.Proofs.Filter.Like
import NestedResources.Proofs.Service.ScalarUpdate
import NestedResources.Proofs.Service.CollectedIssues
import NestedResources.Proofs.Query.PageNumbers
import NestedResources.Proofs.Schema.Accepted
import NestedResources.Proofs.Write.Canonical
import NestedResources.Proofs.Store.Sorted
import NestedResources.Proofs.Query.EmbedCalls
import NestedResources.Proofs.Write.WellScoped
import NestedResources.Proofs.Cli.Issues
