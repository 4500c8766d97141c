import AuraRedis.Lib.Incremental
import AuraRedis.Lib.Machine
import AuraRedis.Resp.Proof.Parse
import AuraRedis.Resp.Proof.Stream
import AuraRedis.Resp.Proof.Drain
import AuraRedis.Core.Proof.Runs
import AuraRedis.Core.Proof.Pinned
import AuraRedis.Core.Proof.Memory
import AuraRedis.Core.Proof.Stats
import AuraRedis.Lib.Prog
import AuraRedis.Resp.Wire
import AuraRedis.Server.Dispatch
import AuraRedis.Rdb.Load
import AuraRedis.Server.Proof.Zset
import AuraRedis.Server.Proof.Full
import AuraRedis.Server.Proof.Readonly
import AuraRedis.Server.Proof.Locked
import AuraRedis.Server.Proof.ConfigFile
import AuraRedis.Aura.Proof.Resp
import AuraRedis.Agent.Body
import AuraRedis.Agent.Canary
import AuraRedis.Agent.Evolve
import AuraRedis.Agent.Fitness
import AuraRedis.Agent.Loop
import AuraRedis.Agent.Proof.Moves
import AuraRedis.Agent.Proof.Poison
import AuraRedis.Lib.Glob
import AuraRedis.Core.Proof.Glob
import AuraRedis.Server.Proof.Deadline
import AuraRedis.Core.ListNodes
import AuraRedis.Core.Proof.Elements
import AuraRedis.Core.Proof.Fields
import AuraRedis.Core.Proof.Hscan
import AuraRedis.Core.Proof.Listing
import AuraRedis.Lib.Occurrences
import AuraRedis.Lib.Reader
import AuraRedis.Lib.Ring
import AuraRedis.Rdb.Proof.Format
import AuraRedis.Rdb.Proof.Lifetime
import AuraRedis.Resp.Proof.Oversize
import AuraRedis.Server.Latency
import AuraRedis.Server.Proof.ByScore
import AuraRedis.Server.Proof.FrontEnds
import AuraRedis.Server.Proof.Hash
import AuraRedis.Server.Proof.LinkedLists
import AuraRedis.Server.Proof.PubSub
import AuraRedis.Server.Proof.Slowlog
import AuraRedis.Server.Proof.ZsetCap
import AuraRedis.Aura.Adaptive
import AuraRedis.Aura.Commands
import AuraRedis.Aura.Proof.Adaptive
import AuraRedis.Aura.Proof.Pairs
import AuraRedis.Server.Proof.Password
import AuraRedis.Agent.Proof.Audit
import AuraRedis.Aura.Proof.Server
import AuraRedis.Aura.Proof.Unseen
import AuraRedis.Aura.Proof.Replies
import AuraRedis.Aura.Proof.Contents
import AuraRedis.Rdb.Proof.Contents
import AuraRedis.Lib.Delivers
import AuraRedis.Server.Proof.Framing
import AuraRedis.Server.Proof.Spoken
import AuraRedis.Server.Proof.OneReply
import AuraRedis.Lib.Pipelined
import AuraRedis.Resp.Proof.Onward
import AuraRedis.Server.Loop
import AuraRedis.Server.Proof.Inbox
