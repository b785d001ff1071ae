import Lax.Foundation.Slice
import Lax.Foundation.LittleEndian
import Lax.Foundation.SortedMap
import Lax.Foundation.Input
import Lax.Foundation.Rijndael
import Lax.Foundation.Runs
import Lax.Foundation.Threads
import Lax.Foundation.BlockMode
import Lax.Foundation.Cells
import Lax.Foundation.FrameParser
import Lax.Foundation.Machine
import Lax.Foundation.Turn
import Lax.Foundation.PriorityQueue
import Lax.Foundation.KeyedQueue
import Lax.Foundation.NumberedTree
import Lax.Foundation.Rooted
import Lax.Util.Impl.Sequence
import Lax.Util.Lemmas.Sequence
import Lax.Util.Impl.SequenceHistory
import Lax.Util.Lemmas.SequenceHistory
import Lax.Util.Impl.ObjectPool
import Lax.Util.Lemmas.ObjectPool
import Lax.Util.Impl.StringUtil
import Lax.Util.Lemmas.Tokenize
import Lax.Util.Lemmas.TokenizeWide
import Lax.Util.Impl.StateMachine
import Lax.Util.Lemmas.StateMachine
import Lax.Util.Impl.StateGraph
import Lax.Util.Lemmas.StateSearch
import Lax.Util.Lemmas.StateGraph
import Lax.Util.Lemmas.StateTreeGraph
import Lax.Net.Basic
import Lax.Net.Buffer.Impl.BufferPool
import Lax.Net.Buffer.Impl.Extent
import Lax.Net.Buffer.Impl.ResizeBuffer
import Lax.Net.Buffer.Lemmas.Extent
import Lax.Net.Buffer.Lemmas.BufferPool
import Lax.Net.Buffer.Lemmas.ResizeBuffer
import Lax.Net.Buffer.Lemmas.Pack
import Lax.Net.Buffer.Lemmas.Resize
import Lax.Net.Buffer.Impl.Holders
import Lax.Net.Buffer.Lemmas.Holders
import Lax.Net.Modifier.Impl.Basic
import Lax.Net.Modifier.Impl.Sequencer
import Lax.Net.Modifier.Impl.Checksum
import Lax.Net.Modifier.Impl.Cipher
import Lax.Net.Modifier.Lemmas.Basic
import Lax.Net.Modifier.Lemmas.Sequencer
import Lax.Net.Modifier.Lemmas.Checksum
import Lax.Net.Modifier.Lemmas.Cipher
import Lax.Net.BitsProtocol.Impl.Modified
import Lax.Net.BitsSerializer.Impl.Reader
import Lax.Net.BitsSerializer.Impl.Schema
import Lax.Net.BitsSerializer.Lemmas.RoundTrip
import Lax.Net.BitsSerializer.Lemmas.Reader
import Lax.Net.BitsSerializer.Impl.Message
import Lax.Net.BitsSerializer.Lemmas.Message
import Lax.Net.BitsSerializer.Lemmas.Room
import Lax.Net.BitsSerializer.Lemmas.Shortest
import Lax.Net.BitsSerializer.Lemmas.Codec
import Lax.Net.BitsProtocol.Impl.Message
import Lax.Net.BitsProtocol.Impl.Protocol
import Lax.Net.BitsProtocol.Impl.ConcurrentSend
import Lax.Net.BitsProtocol.Impl.SendBuffer
import Lax.Net.BitsProtocol.Impl.Lifetime
import Lax.Net.BitsProtocol.Impl.Calls
import Lax.Net.BitsProtocol.Lemmas.Modified
import Lax.Net.BitsProtocol.Lemmas.Lockstep
import Lax.Net.BitsProtocol.Lemmas.ConcurrentSend
import Lax.Net.BitsProtocol.Lemmas.SendBuffer
import Lax.Net.BitsProtocol.Lemmas.Message
import Lax.Net.BitsProtocol.Lemmas.Packetization
import Lax.Net.BitsProtocol.Lemmas.Waiting
import Lax.Net.BitsProtocol.Lemmas.Retained
import Lax.Net.BitsProtocol.Lemmas.Calls
import Lax.Net.BitsProtocol.Lemmas.WrongLength
import Lax.Net.BitsProtocol.Lemmas.RoundTrip
import Lax.Net.BitsProtocol.Lemmas.Hostile
import Lax.Net.BitsProtocol.Lemmas.Lifetime
import Lax.Net.Session.Impl.SegmentBuffer
import Lax.Net.Session.Impl.Session
import Lax.Net.Session.Impl.SegmentPool
import Lax.Net.Session.Lemmas.SegmentBuffer
import Lax.Net.Session.Lemmas.SegmentPool
import Lax.Net.Session.Lemmas.ByteQueue
import Lax.Net.Session.Lemmas.Step
import Lax.Net.Session.Lemmas.Outstanding
import Lax.Net.Session.Lemmas.Stream
import Lax.Net.Session.Lemmas.Close
import Lax.Net.Service.Impl.SlotTable
import Lax.Net.Service.Impl.Service
import Lax.Net.Service.Impl.SharedChannel
import Lax.Net.Service.Lemmas.SlotTable
import Lax.Net.Service.Lemmas.Step
import Lax.Net.Service.Lemmas.Slots
import Lax.Net.Service.Lemmas.LockDiscipline
import Lax.Net.Service.Lemmas.Ready
import Lax.Net.Service.Lemmas.Acquire
import Lax.Net.Service.Impl.SlotHistory
import Lax.Net.Service.Lemmas.SlotHistory
import Lax.Net.Service.Impl.Acceptor
import Lax.Net.Service.Impl.Connections
import Lax.Net.Service.Lemmas.Addr
import Lax.Net.Service.Lemmas.Listen
import Lax.Net.Service.Lemmas.Connections
import Lax.Net.Service.Lemmas.SharedChannel
import Lax.Channel.Impl.Topic
import Lax.Channel.Impl.SubMap
import Lax.Channel.Lemmas.Topic
import Lax.Channel.Lemmas.SubMap
import Lax.Net.Session.Impl.SubsClose
import Lax.Net.Session.Lemmas.SubsClose
import Lax.Net.Session.Impl.Notify
import Lax.Net.Session.Lemmas.Notify
import Lax.Net.Session.Impl.Ref
import Lax.Net.Session.Lemmas.Ref
import Lax.Net.Session.Impl.SendPipeline
import Lax.Net.Session.Lemmas.SendPipeline
import Lax.Net.Link.Impl.Link
import Lax.Net.Link.Lemmas.Prefix
import Lax.Net.Link.Lemmas.Link
import Lax.Foundation.XorLinear
import Lax.Foundation.Lfsr
import Lax.Util.Botan.Impl.Word
import Lax.Foundation.Absorb
import Lax.Foundation.KeyAlternating
import Lax.Util.Botan.Impl.Crc32
import Lax.Util.Botan.Impl.Aes
import Lax.Util.Botan.Impl.MdxHash
import Lax.Util.Botan.Impl.Sha1
import Lax.Util.Botan.Lemmas.Aes
import Lax.Util.Botan.Lemmas.Rijndael
import Lax.Util.Botan.Impl.Cbc
import Lax.Util.Botan.Lemmas.MdxHash
import Lax.Util.Botan.Lemmas.Sha1
import Lax.Util.Botan.Lemmas.Cbc
import Lax.Util.Botan.Impl.CbcMode
import Lax.Util.Botan.Lemmas.Crc32
import Lax.Util.Botan.Impl.Amalgamation
import Lax.Util.Botan.Lemmas.CbcMode
import Lax.Net.Modifier.Lemmas.Amalgamation
import Lax.Net.BitsProtocol.Lemmas.Damage
import Lax.Channel.Impl.Channel
import Lax.Channel.Lemmas.Posting
import Lax.Channel.Lemmas.Delivery
import Lax.Channel.Lemmas.PublishTo
import Lax.Channel.Impl.Dispatcher
import Lax.Channel.Lemmas.Dispatcher
import Lax.Channel.Impl.ChannelMap
import Lax.Channel.Lemmas.ChannelMap
import Lax.Channel.Impl.LockedChannel
import Lax.Channel.Lemmas.Reentry
import Lax.Channel.Lemmas.LockedChannel
import Lax.Channel.Lemmas.Callback
import Lax.Channel.Impl.Execute
import Lax.Channel.Lemmas.Execute
import Lax.Channel.Lemmas.Filter
import Lax.Channel.Impl.Timer
import Lax.Channel.Lemmas.Timer
import Lax.Channel.Lemmas.SlotSharing
import Lax.Channel.Impl.SharedTimer
import Lax.Channel.Lemmas.SharedTimer
import Lax.Channel.Impl.TimerHistory
import Lax.Channel.Lemmas.Visits
import Lax.Channel.Lemmas.CancelFinal
import Lax.Channel.Lemmas.Lifetime
import Lax.Task.Impl.Task
import Lax.Actor.Impl.TypeObjectContainer
import Lax.Actor.Lemmas.TypeObjectContainer
import Lax.Actor.Impl.Actor
import Lax.Actor.Lemmas.Lifecycle
import Lax.Task.Impl.TaskScheduler
import Lax.Task.Lemmas.Step
import Lax.Task.Lemmas.Shutdown
import Lax.Task.Lemmas.Conservation
import Lax.Task.Lemmas.Finished
import Lax.Task.Impl.Placement
import Lax.Task.Lemmas.Placement
import Lax.Task.Impl.FineScheduler
import Lax.Task.Lemmas.FineScheduler
import Lax.Task.Lemmas.Affinity
import Lax.Server.Impl.Server
import Lax.Server.Lemmas.Server
