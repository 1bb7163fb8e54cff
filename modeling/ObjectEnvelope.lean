import ObjectEnvelope.Bytes.Hex
import ObjectEnvelope.Bytes.Item
import ObjectEnvelope.Bytes.LittleEndian
import ObjectEnvelope.Bytes.Reader
import ObjectEnvelope.Digest
import ObjectEnvelope.Endpoint
import ObjectEnvelope.Envelope.Entry
import ObjectEnvelope.Envelope.Framing
import ObjectEnvelope.Envelope.Resolution
import ObjectEnvelope.Error
import ObjectEnvelope.Graph.Handle
import ObjectEnvelope.Graph.Matching
import ObjectEnvelope.Graph.ObjectGraph
import ObjectEnvelope.Graph.Value
import ObjectEnvelope.Payload.Decoder
import ObjectEnvelope.Payload.Encoder
import ObjectEnvelope.Payload.SchemaTable
import ObjectEnvelope.Payload.Tag
import ObjectEnvelope.Proofs.Bytes.Canonical
import ObjectEnvelope.Proofs.Bytes.Cuts
import ObjectEnvelope.Proofs.Bytes.Failures
import ObjectEnvelope.Proofs.Bytes.FixedWidth
import ObjectEnvelope.Proofs.Bytes.ItemRoundTrip
import ObjectEnvelope.Proofs.Bytes.ReadBack
import ObjectEnvelope.Proofs.Bytes.ReaderRuns
import ObjectEnvelope.Proofs.Bytes.Refusals
import ObjectEnvelope.Proofs.Bytes.Writing
import ObjectEnvelope.Proofs.Endpoint.BackReferences
import ObjectEnvelope.Proofs.Endpoint.Calls
import ObjectEnvelope.Proofs.Endpoint.CanonicalEncodings
import ObjectEnvelope.Proofs.Endpoint.CodecRequests
import ObjectEnvelope.Proofs.Endpoint.CutPayloads
import ObjectEnvelope.Proofs.Endpoint.DecodedGraphs
import ObjectEnvelope.Proofs.Endpoint.DecodingFailures
import ObjectEnvelope.Proofs.Endpoint.EmittedSchemas
import ObjectEnvelope.Proofs.Endpoint.EncodedGraphs
import ObjectEnvelope.Proofs.Endpoint.Forwarding
import ObjectEnvelope.Proofs.Endpoint.Histories
import ObjectEnvelope.Proofs.Endpoint.Independence
import ObjectEnvelope.Proofs.Endpoint.InlineCopies
import ObjectEnvelope.Proofs.Endpoint.LocalRoots
import ObjectEnvelope.Proofs.Endpoint.OwnEnvelopes
import ObjectEnvelope.Proofs.Endpoint.PlacedTypes
import ObjectEnvelope.Proofs.Endpoint.Reencoding
import ObjectEnvelope.Proofs.Endpoint.RepeatedEncodings
import ObjectEnvelope.Proofs.Endpoint.RoundTrips
import ObjectEnvelope.Proofs.Endpoint.Transfers
import ObjectEnvelope.Proofs.Envelope.Agreeing
import ObjectEnvelope.Proofs.Envelope.CanonicalFrames
import ObjectEnvelope.Proofs.Envelope.CutFrames
import ObjectEnvelope.Proofs.Envelope.Describing
import ObjectEnvelope.Proofs.Envelope.EntryOrder
import ObjectEnvelope.Proofs.Envelope.Failures
import ObjectEnvelope.Proofs.Envelope.Frames
import ObjectEnvelope.Proofs.Envelope.Provenance
import ObjectEnvelope.Proofs.Envelope.Rebuilding
import ObjectEnvelope.Proofs.Envelope.RepeatedResolutions
import ObjectEnvelope.Proofs.Envelope.Resolutions
import ObjectEnvelope.Proofs.Envelope.Resolving
import ObjectEnvelope.Proofs.Envelope.Standing
import ObjectEnvelope.Proofs.Envelope.Steady
import ObjectEnvelope.Proofs.Envelope.Verbatim
import ObjectEnvelope.Proofs.Envelope.Verdicts
import ObjectEnvelope.Proofs.Graph.Copies
import ObjectEnvelope.Proofs.Graph.CoverSizes
import ObjectEnvelope.Proofs.Graph.Covers
import ObjectEnvelope.Proofs.Graph.Edits
import ObjectEnvelope.Proofs.Graph.Fits
import ObjectEnvelope.Proofs.Graph.Grounded
import ObjectEnvelope.Proofs.Graph.Isomorphisms
import ObjectEnvelope.Proofs.Graph.Parts
import ObjectEnvelope.Proofs.Graph.Reach
import ObjectEnvelope.Proofs.Graph.Relabeling
import ObjectEnvelope.Proofs.Graph.Subtypes
import ObjectEnvelope.Proofs.Graph.Twins
import ObjectEnvelope.Proofs.Graph.Updates
import ObjectEnvelope.Proofs.Graph.Walks
import ObjectEnvelope.Proofs.Lists
import ObjectEnvelope.Proofs.Payload.CodecBlindness
import ObjectEnvelope.Proofs.Payload.Codecs
import ObjectEnvelope.Proofs.Payload.Copying
import ObjectEnvelope.Proofs.Payload.CutPayloads
import ObjectEnvelope.Proofs.Payload.DecoderFailures
import ObjectEnvelope.Proofs.Payload.DecoderInvariant
import ObjectEnvelope.Proofs.Payload.DecoderSteps
import ObjectEnvelope.Proofs.Payload.EncoderFailures
import ObjectEnvelope.Proofs.Payload.EncoderSteps
import ObjectEnvelope.Proofs.Payload.EncoderWalk
import ObjectEnvelope.Proofs.Payload.References
import ObjectEnvelope.Proofs.Payload.Restoring
import ObjectEnvelope.Proofs.Payload.Retracing
import ObjectEnvelope.Proofs.Payload.Rewriting
import ObjectEnvelope.Proofs.Payload.SchemaTables
import ObjectEnvelope.Proofs.Payload.Serializable
import ObjectEnvelope.Proofs.Payload.Spelling
import ObjectEnvelope.Proofs.Payload.TwinDecodings
import ObjectEnvelope.Proofs.Runs
import ObjectEnvelope.Proofs.Schema.Alike
import ObjectEnvelope.Proofs.Schema.Collisions
import ObjectEnvelope.Proofs.Schema.Declaring
import ObjectEnvelope.Proofs.Schema.Layouts
import ObjectEnvelope.Proofs.Schema.Signatures
import ObjectEnvelope.Proofs.TwoRuns
import ObjectEnvelope.Proofs.Types.Bindings
import ObjectEnvelope.Proofs.Types.CacheGrowth
import ObjectEnvelope.Proofs.Types.Caches
import ObjectEnvelope.Proofs.Types.CodecKeeping
import ObjectEnvelope.Proofs.Types.InheritedLayouts
import ObjectEnvelope.Proofs.Types.Registrations
import ObjectEnvelope.Proofs.Types.Syntheses
import ObjectEnvelope.Scalar
import ObjectEnvelope.Schema.Descriptor
import ObjectEnvelope.Schema.Field
import ObjectEnvelope.Schema.ValueType
import ObjectEnvelope.Settings
import ObjectEnvelope.Step
import ObjectEnvelope.Text.Names
import ObjectEnvelope.Text.Utf8
import ObjectEnvelope.Types.CodecCache
import ObjectEnvelope.Types.LocalTypes
import ObjectEnvelope.Types.RuntimeType
import ObjectEnvelope.Types.Synthesis
