import StreamLang.Amount
import StreamLang.Cache
import StreamLang.Config.Basic
import StreamLang.Config.Json
import StreamLang.Decimal.Layout
import StreamLang.Decimal.Reading
import StreamLang.Decimal.Scaling
import StreamLang.Decimal.Shortest
import StreamLang.Engine.Basic
import StreamLang.Engine.Pass
import StreamLang.Error
import StreamLang.Expr.Basic
import StreamLang.Expr.Json
import StreamLang.Host
import StreamLang.Json.Basic
import StreamLang.Json.Reader
import StreamLang.Json.Writer
import StreamLang.Listeners
import StreamLang.Machine.Basic
import StreamLang.Machine.Frame
import StreamLang.Machine.Record
import StreamLang.Machine.Run
import StreamLang.Machine.Setting
import StreamLang.MessagePack.Basic
import StreamLang.MessagePack.Reader
import StreamLang.MessagePack.Writer
import StreamLang.Number
import StreamLang.Operator
import StreamLang.Ordered
import StreamLang.Reactor
import StreamLang.Scope
import StreamLang.Staleness
import StreamLang.Step.Basic
import StreamLang.Step.Generate
import StreamLang.Step.Memo
import StreamLang.Stream.Catalog
import StreamLang.Stream.EventLog
import StreamLang.Stream.History
import StreamLang.Stream.Inbox
import StreamLang.Stream.Registry
import StreamLang.Tree.Analysis
import StreamLang.Tree.Basic
import StreamLang.Tree.Draft
import StreamLang.Tree.Node
import StreamLang.Value.Basic
import StreamLang.Value.Display
import StreamLang.Value.Json
import StreamLang.Value.MessagePack
import StreamLang.Value.Operations
import StreamLang.Proofs.Tree.Names
import StreamLang.Proofs.Engine.Coherent
import StreamLang.Proofs.Engine.FromScratch
import StreamLang.Proofs.Engine.Invalidation
import StreamLang.Proofs.Closures
import StreamLang.Proofs.Engine.Delivery
import StreamLang.Proofs.Language
import StreamLang.Proofs.Renaming
import StreamLang.Proofs.Machine.Subscriptions
import StreamLang.Proofs.Reuse.Ahead
import StreamLang.Proofs.Reuse.Stamps
import StreamLang.Proofs.Engine.Attempts
import StreamLang.Proofs.Engine.Captures
import StreamLang.Proofs.Engine.Living
import StreamLang.Proofs.Engine.Transparency
import StreamLang.Proofs.Engine.Reactions
import StreamLang.Proofs.Engine.Isolation
import StreamLang.Proofs.Engine.Capacity
import StreamLang.Proofs.Machine.Functions
import StreamLang.Proofs.Machine.Deeds
import StreamLang.Proofs.Machine.Naming
import StreamLang.Proofs.Engine.Causes
import StreamLang.Proofs.Stream.Replay
import StreamLang.Proofs.Stream.Arrival
import StreamLang.Proofs.Engine.Arrival
import StreamLang.Proofs.Host.Conversation
import StreamLang.Proofs.Engine.Unreached
import StreamLang.Proofs.Engine.Subscribers
import StreamLang.Proofs.Value.RoundTrip
import StreamLang.Proofs.Reaction.Lasting
import StreamLang.Proofs.Engine.Stopping
import StreamLang.Proofs.Staleness.Memory
import StreamLang.Proofs.Tree.Acceptance
import StreamLang.Proofs.Expr.Layout
import StreamLang.Proofs.Expr.ReadBack
import StreamLang.Proofs.Machine.Budget
import StreamLang.Proofs.Stream.Ledger
import StreamLang.Proofs.Engine.Versions
import StreamLang.Proofs.Engine.Visits
import StreamLang.Proofs.Tree.Exactness
import StreamLang.Proofs.Json.ReadBack
import StreamLang.Proofs.Value.JsonText
import StreamLang.Proofs.Value.Changes
import StreamLang.Proofs.Value.Matching
import StreamLang.Proofs.Amount.Rounding
import StreamLang.Proofs.Host.Readings
import StreamLang.Proofs.Host.Driven
import StreamLang.Proofs.Engine.Eviction
