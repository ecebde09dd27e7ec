import Ptrtd.Library.Run
import Ptrtd.Model.Session
import Ptrtd.Verification.Buffer.Correctness
import Ptrtd.Verification.Table.Correctness
import Ptrtd.Verification.Session.Effects
import Ptrtd.Verification.Session.Steps
import Ptrtd.Verification.Receive.Correctness
import Ptrtd.Verification.Receive.Duty
import Ptrtd.Verification.Receive.Unacceptable
import Ptrtd.Verification.Relay.Correctness
import Ptrtd.Verification.Relay.Registration
import Ptrtd.Verification.Relay.Ownership
import Ptrtd.Verification.Relay.Pressure
import Ptrtd.Verification.Handshake.Correctness
import Ptrtd.Verification.Send.Correctness
import Ptrtd.Verification.Send.Hostile
import Ptrtd.Verification.Send.Edge
import Ptrtd.Verification.Send.Completion
import Ptrtd.Verification.Translation.Correctness
import Ptrtd.Verification.Timer.References
import Ptrtd.Verification.Timer.Firing
import Ptrtd.Verification.Timer.Waiting
import Ptrtd.Verification.Buffer.Stream
import Ptrtd.Verification.Packet.Bounds
import Ptrtd.Verification.Udp.Checksum
import Ptrtd.Verification.Udp.RoundTrip
import Ptrtd.Verification.Neighbor.Queue
import Ptrtd.Verification.Neighbor.Cache
import Ptrtd.Verification.Packet.Lengths
import Ptrtd.Verification.Table.Lookup
import Ptrtd.Verification.Receive.Reset
import Ptrtd.Verification.Link.Correctness
import Ptrtd.Verification.Send.Drain
import Ptrtd.Verification.Timer.Estimate
import Ptrtd.Verification.Timer.Sample
import Ptrtd.Verification.Timer.Transmission
import Ptrtd.Verification.Event.Correctness
import Ptrtd.Verification.Event.Pass
import Ptrtd.Verification.Udp.Maps
import Ptrtd.Verification.Rbtree.Traversal
import Ptrtd.Verification.Rbtree.Balance
import Ptrtd.Verification.System.Loop
import Ptrtd.Verification.Table.Status
import Ptrtd.Verification.Link.Bridge
import Ptrtd.Verification.Config.Correctness
import Ptrtd.Verification.Relay.Possession
