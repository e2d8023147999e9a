import Aware.Lib.Cluster
import Aware.Lib.WeightedTurns
import Aware.Address
import Aware.Member.Chain
import Aware.Member.Group
import Aware.Member.RoundRobin
import Aware.Member.Fairness
import Aware.Lib.Runs
import Aware.Member.History
import Aware.Member.Recorded
import Aware.Session.Ports
import Aware.Session.Table
import Aware.Session.Timeout
import Aware.Lib.BitStrings
import Aware.Radix.Tree
import Aware.Radix.Shape
import Aware.Radix.Entries
import Aware.Radix.Invariant
import Aware.Radix.Match
import Aware.Radix.Insert
import Aware.Radix.Delete
import Aware.Lib.PrefixMap
import Aware.Radix.Refinement
import Aware.Router
import Aware.Filter.Chain
import Aware.Filter.Store
import Aware.Filter.Search
import Aware.Session.Keys
import Aware.Service.Model
import Aware.Lib.Ledger
import Aware.Lib.Places
import Aware.Service.World
import Aware.Service.Placement
import Aware.Service.Rollback
import Aware.Service.Alone
import Aware.Service.Ports
import Aware.Service.Target
import Aware.Service.Handover
import Aware.Service.Idle
import Aware.Lib.OnesSum
import Aware.Lib.Memory
import Aware.Frame.Mbuf
import Aware.Frame.Chksum
import Aware.Frame.Process
import Aware.Frame.Valid
import Aware.Frame.Input
import Aware.Frame.Once
import Aware.Frame.Queue
import Aware.Service.Lookup
import Aware.Frame.RoundTrip
import Aware.Rings
import Aware.Netlink
import Aware.Lib.Numerals
import Aware.Lib.Undo
import Aware.Rest.Rows
import Aware.Rest.Filter
import Aware.Rest.Member
import Aware.Rest.Handlers
import Aware.Rest.Tables
import Aware.Rest.Atomic
import Aware.Rest.Groups
import Aware.Rest.References
import Aware.Lib.RedBlack
import Aware.Tree.Model
import Aware.Tree.Links
import Aware.Tree.Insert
import Aware.Tree.Splice
import Aware.Tree.Delete
import Aware.Tree.Groups
import Aware.Lib.Slots
import Aware.Dns.Model
import Aware.Dns.Layout
import Aware.Dns.Grow
import Aware.Dns.Shrink
import Aware.Dns.Valid
import Aware.Dns.Search
import Aware.Dns.Insert
import Aware.Dns.Remove
import Aware.Dns.Store
import Aware.Frame.Query
import Aware.Lib.Linked
import Aware.Lib.Tiling
import Aware.Frame.Pseudo
import Aware.Frame.Pseudo6
import Aware.Daemon.Supervisor
import Aware.Frame.Name
import Aware.Worker
import Aware.Daemon.Lock
import Aware.Lib.RingBuffer
import Aware.Log
import Aware.Capture
import Aware.Filter.Nodes
import Aware.Filter.Walk
import Aware.Frame.Bounds
import Aware.Slab.Model
import Aware.Slab.Pieces
import Aware.Slab.Pages
import Aware.Slab.Chunks
import Aware.Slab.Blocks
import Aware.Slab.Runs
import Aware.Ether
import Aware.Arp.Request
import Aware.Vport
import Aware.Arp.Input
import Aware.Lib.JsonText
import Aware.Rest.Parament
import Aware.Lib.SqlText
import Aware.Rest.Sql
import Aware.Member.Deletion
import Aware.Rest.MemberDelete
import Aware.Rest.Reported
