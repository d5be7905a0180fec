import RuleIndex.Ascending
import RuleIndex.Bitset
import RuleIndex.Cache
import RuleIndex.Codec
import RuleIndex.Delimited
import RuleIndex.Dimension
import RuleIndex.Entry
import RuleIndex.Error
import RuleIndex.Index
import RuleIndex.Json
import RuleIndex.Json.Format
import RuleIndex.Log
import RuleIndex.Outline
import RuleIndex.Query
import RuleIndex.Recency
import RuleIndex.Report
import RuleIndex.Rule
import RuleIndex.Space
import RuleIndex.Split
import RuleIndex.Tree
import RuleIndex.Tree.Drawing
import RuleIndex.Tree.Growth
import RuleIndex.Tree.Search
import RuleIndex.Tree.Visit
import RuleIndex.Value
import RuleIndex.Proofs.Traversal
import RuleIndex.Proofs.Entries
import RuleIndex.Proofs.Growth
import RuleIndex.Proofs.Build
import RuleIndex.Proofs.Matching
import RuleIndex.Proofs.Codes
import RuleIndex.Proofs.Queries
import RuleIndex.Proofs.Satisfaction
import RuleIndex.Proofs.Explanation
import RuleIndex.Proofs.Leaves
import RuleIndex.Proofs.Recency
import RuleIndex.Proofs.Refusals
import RuleIndex.Proofs.Runs
import RuleIndex.Proofs.Caching
import RuleIndex.Proofs.Reordering
import RuleIndex.Proofs.Paths
import RuleIndex.Proofs.SearchTree
import RuleIndex.Proofs.Logging
import RuleIndex.Proofs.RoundTrip
import RuleIndex.Proofs.QueryKeys
import RuleIndex.Proofs.Respelling
import RuleIndex.Proofs.Depth
import RuleIndex.Proofs.Failures
import RuleIndex.Proofs.Mismatches
import RuleIndex.Proofs.Dictionaries
import RuleIndex.Proofs.CodeOrder
import RuleIndex.Proofs.Rendering
import RuleIndex.Proofs.Placing
import RuleIndex.Proofs.Histories
import RuleIndex.Proofs.Expansion
import RuleIndex.Proofs.Selection
import RuleIndex.Proofs.Addresses
import RuleIndex.Proofs.Drawing
