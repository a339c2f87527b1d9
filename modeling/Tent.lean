import Tent.Foundation.Bytes
import Tent.Foundation.Transition
import Tent.Foundation.Segments
import Tent.Foundation.Refill
import Tent.Foundation.Hex
import Tent.Foundation.Hedge
import Tent.Foundation.Absorb
import Tent.Foundation.SecureHash
import Tent.Foundation.Utf8
import Tent.Foundation.Lexical
import Tent.Foundation.Simulation
import Tent.Foundation.Binary32
import Tent.Storage.FileStorage
import Tent.Storage.FileHandler
import Tent.Storage.DirTree
import Tent.Storage.KeyedWrite
import Tent.Pieces.PieceHandler
import Tent.Pieces.WriteIfValid
import Tent.Pieces.Corruption
import Tent.Pieces.Counting
import Tent.Pieces.Download
import Tent.Pieces.Queues
import Tent.Pieces.RequestQueues
import Tent.Pieces.IndexRange
import Tent.Pieces.Slots
import Tent.Pieces.Routing
import Tent.Pieces.WriteRange
import Tent.Pieces.Supply
import Tent.Pieces.Bitfield
import Tent.Pieces.Tiling
import Tent.Pieces.Assembly
import Tent.Wire.Message
import Tent.Wire.Framer
import Tent.Wire.Chunking
import Tent.Wire.Bounds
import Tent.Agent.Reactor
import Tent.Agent.TorrentAgent
import Tent.Agent.Effects
import Tent.Agent.Reaction
import Tent.Agent.Receive
import Tent.Agent.Sending
import Tent.Agent.ProtocolOrder
import Tent.Agent.Choking
import Tent.Agent.Reconnect
import Tent.Agent.Chunking
import Tent.Agent.Registration
import Tent.Agent.Burst
import Tent.Agent.Tock
import Tent.Session.World
import Tent.Session.Bitfields
import Tent.Session.Ownership
import Tent.Session.Decoders
import Tent.Session.Poll
import Tent.Session.Delivery
import Tent.Session.Engine
import Tent.Tracker.Endpoint
import Tent.Tracker.UdpTrackerClient
import Tent.Tracker.TrackerClient
import Tent.Tracker.Peers
import Tent.Tracker.Announce
import Tent.Tracker.Phases
import Tent.Tracker.Compact
import Tent.Tracker.Urls
import Tent.Tracker.InfoHash
import Tent.Bencode.Bdecode
import Tent.Bencode.Grammar
import Tent.Bencode.Accepts
import Tent.Bencode.Node
import Tent.Bencode.Tree
import Tent.Bencode.Dialogue
import Tent.Bencode.Encode
import Tent.Bencode.Response
import Tent.Digest.Sha1
import Tent.Digest.Transform
import Tent.Digest.Streaming
import Tent.Digest.Hasher
import Tent.Metainfo.Codepoint
import Tent.Metainfo.Sanitize
import Tent.Metainfo.AddFile
import Tent.Metainfo.InfoSection
import Tent.Metainfo.Accepted
import Tent.Metainfo.RoundTrip
