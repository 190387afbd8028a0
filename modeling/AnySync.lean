import AnySync.Acl.Account
import AnySync.Acl.Apply
import AnySync.Acl.Bookkeeping
import AnySync.Acl.CatchUp
import AnySync.Acl.Crash
import AnySync.Acl.Frame
import AnySync.Acl.History
import AnySync.Acl.Limits
import AnySync.Acl.List
import AnySync.Acl.LoadRecords
import AnySync.Acl.Log
import AnySync.Acl.Raw
import AnySync.Acl.ReadKeys
import AnySync.Acl.Rename
import AnySync.Acl.Replay
import AnySync.Acl.Requests
import AnySync.Acl.Roles
import AnySync.Acl.State
import AnySync.Acl.Status
import AnySync.Acl.Storage
import AnySync.Acl.Transition
import AnySync.Acl.Types
import AnySync.Acl.Validator
import AnySync.App.Lifecycle
import AnySync.Go.Basic
import AnySync.Go.Numbers
import AnySync.Go.Run
import AnySync.Go.Slice
import AnySync.Go.Sorted
import AnySync.Go.Sum
import AnySync.Go.TokenBucket
import AnySync.Graph.Search
import AnySync.Handshake.Closer
import AnySync.Headsync.HeadStorage
import AnySync.Headsync.Mirror
import AnySync.Headsync.Model
import AnySync.KeyValue.Call
import AnySync.KeyValue.Converge
import AnySync.KeyValue.Iterate
import AnySync.KeyValue.Mirror
import AnySync.KeyValue.Model
import AnySync.KeyValue.Report
import AnySync.KeyValue.SetRaw
import AnySync.KeyValue.Timestamps
import AnySync.KeyValue.Writers
import AnySync.Ldiff.Answers
import AnySync.Ldiff.Compare
import AnySync.Ldiff.Contents
import AnySync.Ldiff.Diff
import AnySync.Ldiff.Digest
import AnySync.Ldiff.Divide
import AnySync.Ldiff.Elements
import AnySync.Ldiff.Exact
import AnySync.Ldiff.Fresh
import AnySync.Ldiff.History
import AnySync.Ldiff.Model
import AnySync.Ldiff.Ranges
import AnySync.Ldiff.Rounds
import AnySync.Ldiff.Runs
import AnySync.Ldiff.Total
import AnySync.Ldiff.Tree
import AnySync.Ldiff.Update
import AnySync.Net.Dial
import AnySync.Net.QuicDemotion
import AnySync.ObjectTree.Differ
import AnySync.ObjectTree.Load
import AnySync.ObjectTree.Object
import AnySync.ObjectTree.SnapshotPath
import AnySync.ObjectTree.Snapshots
import AnySync.Order.Tiles
import AnySync.Pubsub.Authentic
import AnySync.Pubsub.Dedup
import AnySync.Pubsub.Local
import AnySync.Pubsub.Match
import AnySync.Pubsub.Trie
import AnySync.Queues.Limit
import AnySync.Rpc.Encoding
import AnySync.Rpc.Limiter
import AnySync.Space.Payload
import AnySync.Space.Pull
import AnySync.StreamPool.Consistent
import AnySync.StreamPool.Deliver
import AnySync.StreamPool.Model
import AnySync.Wire.Encode
