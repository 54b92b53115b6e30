import Yrby.Causal.Closure
import Yrby.Causal.Absorb
import Yrby.Parsing.Delimited
import Yrby.Parsing.Parting
import Yrby.Parsing.Lines
import Yrby.Effects.Program
import Yrby.Effects.Stateful
import Yrby.Effects.Pool
import Yrby.Effects.Refines
import Yrby.Effects.Turns
import Yrby.Effects.Runs
import Yrby.Effects.Snapshots
import Yrby.Document
import Yrby.Wire
import Yrby.Yrs
import Yrby.WireFormat
import Yrby.Reference.Codec
import Yrby.Reference.Replica
import Yrby.Reference.Crate
import Yrby.Protocol
import Yrby.Serving
import Yrby.Gate
import Yrby.Extraction
import Yrby.Readiness
import Yrby.Convergence
import Yrby.Duplicates
import Yrby.Atomicity
import Yrby.PartialApply
import Yrby.Lexical
import Yrby.Decoder
import Yrby.MapJson
import Yrby.Base64
import Yrby.Json
import Yrby.Value
import Yrby.ReliableSync
import Yrby.Retransmission
import Yrby.Yjs
import Yrby.Reference.Client
import Yrby.Session
import Yrby.Presence
import Yrby.AllOrNothing
import Yrby.Relay
import Yrby.Frames
import Yrby.Client
import Yrby.Identity
import Yrby.Announcing
import Yrby.Channel
import Yrby.SizeGate
import Yrby.History
import Yrby.Calls
import Yrby.DurableLog
import Yrby.Recording
import Yrby.Compaction
import Yrby.AuditLog
import Yrby.Durability
import Yrby.Storage
import Yrby.FileStore
import Yrby.PgStore
import Yrby.Preview
import Yrby.Agreement
import Yrby.Delivery
import Yrby.NoLoss
import Yrby.Downstream
import Yrby.Isolation
import Yrby.Rooted
import Yrby.CompleteFrames
import Yrby.Resync
import Yrby.Faults
import Yrby.ExactlyOnce
import Yrby.CaughtUp
import Yrby.Provider
import Yrby.Whisper
import Yrby.Status
import Yrby.Recovery
import Yrby.Configuration
