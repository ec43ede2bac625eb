import LibTracer.Bindings.Decode
import LibTracer.Bindings.Encode
import LibTracer.Bindings.Reassembler
import LibTracer.Wire.PathElement
import LibTracer.Wire.Playout
import LibTracer.Net.CanControl
import LibTracer.Net.CanLossless
import LibTracer.Net.Egress
import LibTracer.Net.Mounts
import LibTracer.Net.NoiseAgreement
import LibTracer.Net.NoiseHandshake
import LibTracer.Net.PrefixIngress
import LibTracer.Net.Relay
import LibTracer.Net.Reply
import LibTracer.Net.Terminus
import LibTracer.Net.WsCodec
import LibTracer.Net.WsMessages
import LibTracer.Graph.AclStore
import LibTracer.Graph.BranchWrite
import LibTracer.Graph.Cached
import LibTracer.Graph.ComposedRead
import LibTracer.Graph.Cut
import LibTracer.Graph.Departure
import LibTracer.Graph.FoldedSweep
import LibTracer.Graph.Holder
import LibTracer.Bindings.FieldText
import LibTracer.Net.CanMessage
import LibTracer.Graph.Ring
import LibTracer.Graph.Stream
