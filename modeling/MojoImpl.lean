import MojoImpl.ByteArray.EmptyReads
import MojoImpl.ByteArray.InPlace
import MojoImpl.ByteArray.Overflow
import MojoImpl.ByteArray.Files
import MojoImpl.ByteArray.Scatter
import MojoImpl.Serializer.RoundTrip
import MojoImpl.Serializer.Bounded
import MojoImpl.Serializer.Streams
import MojoImpl.Channel.RoundTrip
import MojoImpl.Channel.NodeChannel
import MojoImpl.Channel.Transfers
import MojoImpl.Ports.Order
import MojoImpl.Ports.Index
import MojoImpl.Ports.Symmetry
import MojoImpl.Controller.Isolation
import MojoImpl.Controller.Orphans
import MojoImpl.Controller.Acknowledgements
import MojoImpl.Core.Ownership
import MojoImpl.Core.Atomic
import MojoImpl.Core.Handles
import MojoImpl.Core.Reads
import MojoImpl.Concurrency.Order
import MojoImpl.Concurrency.Locks
import MojoImpl.Concurrency.Requests
import MojoImpl.Invitation.Delivery
import MojoImpl.Channel.Connection
import MojoImpl.Channel.EventLoop
import MojoImpl.Invitation.Completion
import MojoImpl.Invitation.Arrivals
import MojoImpl.Concurrency.Creation
