import BigWorlds.Core.Run
import BigWorlds.Rpc.Context
import BigWorlds.Rpc.Timing
import BigWorlds.Net.Address
import BigWorlds.Serving.Registration
import BigWorlds.Net.Streaming
import BigWorlds.Core.Framing
import BigWorlds.Error
import BigWorlds.Worker.Inbox
import BigWorlds.Model.Var
import BigWorlds.Model.Entity
import BigWorlds.Worker.Partition
import BigWorlds.Core.Call
import BigWorlds.Worker.Manager
import BigWorlds.Cluster.State
import BigWorlds.Cluster.Migration
import BigWorlds.Cluster.Conservation
import BigWorlds.Cluster.MigrationRace
import BigWorlds.Cluster.Leader
import BigWorlds.Cluster.Names
import BigWorlds.Query.Global
import BigWorlds.Core.Watch
import BigWorlds.Core.Split
import BigWorlds.Core.Bytes
import BigWorlds.Core.Loop
import BigWorlds.LockStep.Server
import BigWorlds.LockStep.System
import BigWorlds.LockStep.ClockAgreement
import BigWorlds.LockStep.Advance
import BigWorlds.LockStep.Blocking
import BigWorlds.Cluster.Removal
import BigWorlds.Cluster.ModelAgreement
import BigWorlds.Cluster.Snapshot
import BigWorlds.Cluster.Initialization
import BigWorlds.Core.Nesting
import BigWorlds.Machine.Command
import BigWorlds.Machine.Search
import BigWorlds.Text.Address
import BigWorlds.Core.SortedMap
import BigWorlds.Core.Maps
import BigWorlds.Grpc.Value
import BigWorlds.Text.Totality
import BigWorlds.Text.Rereading
import BigWorlds.Text.Value
import BigWorlds.Query.Language
import BigWorlds.Grpc.Query
import BigWorlds.Machine.Tables
import BigWorlds.Machine.Printing
import BigWorlds.Machine.Resolution
import BigWorlds.Machine.Execution
import BigWorlds.Machine.Script
import BigWorlds.Machine.Branches
import BigWorlds.Machine.Balance
import BigWorlds.Machine.Comments
import BigWorlds.Machine.Conditionals
import BigWorlds.Machine.Control
import BigWorlds.Machine.Calls
import BigWorlds.Machine.Loops
import BigWorlds.Machine.Driving
import BigWorlds.Forwarding.LoopFree
import BigWorlds.Forwarding.Proxy
import BigWorlds.Waiting.System
import BigWorlds.Waiting.Acyclic
import BigWorlds.Broadcast.System
import BigWorlds.Broadcast.Invariant
import BigWorlds.Broadcast.Once
import BigWorlds.Broadcast.Hops
import BigWorlds.Grpc.Product
import BigWorlds.Core.Grouping
import BigWorlds.Query.Shape
import BigWorlds.Query.Merging
import BigWorlds.Machine.Actions
import BigWorlds.Machine.Safety
import BigWorlds.Machine.Parser
import BigWorlds.Machine.Lexer
import BigWorlds.Machine.Preprocessor
import BigWorlds.Machine.Construction
import BigWorlds.Machine.Loading
import BigWorlds.Query.Process
import BigWorlds.Query.Filtering
import BigWorlds.Query.Mapping
import BigWorlds.Query.Limit
import BigWorlds.Query.Shapes
import BigWorlds.Query.Archived
import BigWorlds.Worker.Residence
import BigWorlds.Worker.Handles
import BigWorlds.Worker.HotSwap
import BigWorlds.Worker.Subscriptions
import BigWorlds.Worker.Archiving
import BigWorlds.Worker.Removal
import BigWorlds.Worker.Listing
import BigWorlds.Worker.Variables
import BigWorlds.Cluster.Reorganization
import BigWorlds.Model.Attachment
import BigWorlds.Worker.Typing
import BigWorlds.Core.Keyed
import BigWorlds.Model.Merge
import BigWorlds.Model.Intermediate
import BigWorlds.Core.Except
import BigWorlds.Text.Json
import BigWorlds.Core.Worklist
import BigWorlds.Model.Includes
import BigWorlds.Machine.Searching
import BigWorlds.Text.Truncation
import BigWorlds.Text.Conversion
import BigWorlds.Machine.References
import BigWorlds.Machine.Replacing
import BigWorlds.Machine.Substitution
import BigWorlds.Core.Lock
import BigWorlds.Membership.System
import BigWorlds.Membership.Effects
import BigWorlds.Membership.Reconnecting
import BigWorlds.Membership.Joining
import BigWorlds.Membership.Separation
import BigWorlds.Membership.Elections
import BigWorlds.Membership.Spawning
import BigWorlds.Net.Calls
import BigWorlds.Core.Channel
import BigWorlds.Behavior.System
import BigWorlds.Behavior.Barrier
import BigWorlds.Behavior.Unsynced
import BigWorlds.Sim.Variables
import BigWorlds.Sim.Fork
import BigWorlds.Core.Pipeline
import BigWorlds.Worker.Streams
