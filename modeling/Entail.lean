import Entail.Ordered.Key
import Entail.Ordered.Index
import Entail.Text.Character
import Entail.Text.Quoted
import Entail.Number.Integer
import Entail.Number.Decimal
import Entail.NodeFactory
import Entail.Quad
import Entail.Change
import Entail.Pattern
import Entail.Expression
import Entail.Expression.Operations
import Entail.Evaluator
import Entail.Rule
import Entail.Store
import Entail.Store.Command
import Entail.Network
import Entail.Network.Solutions
import Entail.Rules.Requests
import Entail.Rules.Explain
import Entail.Queries.Engine
import Entail.Queries.Calls
import Entail.Network.Calls
import Entail.Rules.Model
import Entail.Proofs.Bindings.Merge
import Entail.Proofs.Pattern.Join
import Entail.Proofs.Network.Delta
import Entail.Proofs.Network.Memory
import Entail.Proofs.Network.Chain
import Entail.Proofs.Network.Blocker
import Entail.Proofs.Network.Grouping
import Entail.Proofs.Network.Outputs
import Entail.Proofs.Network.Scope
import Entail.Proofs.Network.Evaluation
import Entail.Proofs.Network.Changes
import Entail.Proofs.Network.Solutions
import Entail.Proofs.Network.Binding
import Entail.Proofs.Network.Levels
import Entail.Proofs.Network.Residue
import Entail.Proofs.Network.ChainCalls
import Entail.Proofs.Network.JoinOrder
import Entail.Proofs.Network.BlockerCalls
import Entail.Proofs.Network.Batches
import Entail.Proofs.Expression.Safety
import Entail.Proofs.Number.Rounding
import Entail.Proofs.Number.Numeral
import Entail.Proofs.Expression.Arithmetic
import Entail.Proofs.Expression.Sums
import Entail.Proofs.Value.Normal
import Entail.Proofs.Text.Escape
import Entail.Proofs.Node.Text
import Entail.Proofs.Condition.Keys
import Entail.Proofs.Store.Mutations
import Entail.Proofs.Store.Sessions
import Entail.Proofs.Store.Lookup
import Entail.Proofs.Pattern.Substitution
import Entail.Proofs.Store.Subscriptions
import Entail.Proofs.Store.Changesets
import Entail.Proofs.Rules.Support
import Entail.Proofs.Rules.Firings
import Entail.Proofs.Rules.Slots
import Entail.Proofs.Rules.Ledger
import Entail.Proofs.Rules.Grounds
import Entail.Proofs.Rules.Settle
import Entail.Proofs.Rules.Rounds
import Entail.Proofs.Rules.Course
import Entail.Proofs.Rules.Runs
import Entail.Proofs.Rules.Requests
import Entail.Proofs.Rules.History
import Entail.Proofs.Rules.Positive
import Entail.Proofs.Rules.Models
import Entail.Proofs.Rules.Counting
import Entail.Proofs.Rules.Quiet
import Entail.Proofs.Rules.LeastModel
import Entail.Proofs.Rules.Effects
import Entail.Proofs.Rules.Strata
import Entail.Proofs.Rules.Choices
import Entail.Proofs.Rules.Universe
import Entail.Proofs.Rules.Moves
import Entail.Proofs.Rules.Termination
import Entail.Proofs.Rules.Limits
import Entail.Proofs.Rules.Convergence
import Entail.Proofs.Rules.Interrupted
import Entail.Proofs.Rules.Waking
import Entail.Proofs.Rules.Flicker
import Entail.Proofs.Rules.Balance
import Entail.Proofs.Rules.Openings
import Entail.Proofs.Rules.Steps
import Entail.Proofs.Rules.Accounting
import Entail.Proofs.Rules.Confinement
import Entail.Proofs.Rules.Reports
import Entail.Proofs.Rules.Passes
import Entail.Proofs.Rules.Flapping
import Entail.Proofs.Rules.Failures
import Entail.Proofs.Rules.Moments
import Entail.Proofs.Rules.Explained
import Entail.Proofs.Rules.Safety
import Entail.Proofs.Rules.Lagging
import Entail.Proofs.Rules.MatchStatus
import Entail.Proofs.Queries.Live
import Entail.Proofs.Queries.Cache
import Entail.Proofs.Queries.Caching
import Entail.Proofs.Queries.Ranking
import Entail.Proofs.Queries.Engine
import Entail.Proofs.Queries.Requests
import Entail.Proofs.Queries.Sessions
import Entail.Proofs.Queries.Listeners
import Entail.Proofs.Queries.Answers
import Entail.Proofs.Queries.Sharing
