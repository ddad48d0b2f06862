import Coap.Block
import Coap.Bytes
import Coap.Clock
import Coap.Code
import Coap.Config.Basic
import Coap.Config.Settings
import Coap.Config.Transmission
import Coap.Datagram.Basic
import Coap.Datagram.Field
import Coap.Datagram.Reader
import Coap.Draws
import Coap.Duration
import Coap.Endpoint
import Coap.Engine.Basic
import Coap.Engine.Requests
import Coap.Engine.Serving
import Coap.Exchange.Incoming
import Coap.Exchange.Outgoing
import Coap.Exchange.Verdict
import Coap.Identifier.Accounts
import Coap.Identifier.MessageIds
import Coap.Identifier.Tokens
import Coap.Message.Basic
import Coap.Message.Typed
import Coap.Number.Binary
import Coap.Observe.Listeners
import Coap.Observe.Notification
import Coap.Observe.Representation
import Coap.Observe.Resource
import Coap.Observe.Subscriptions
import Coap.Option.Registry
import Coap.Option.Value
import Coap.Option.Values
import Coap.Path
import Coap.Proofs.Bytes.Shortest
import Coap.Proofs.Config.BlockSize
import Coap.Proofs.Datagram.Grammar
import Coap.Proofs.Datagram.InPlace
import Coap.Proofs.Datagram.Normal
import Coap.Proofs.Datagram.Reading
import Coap.Proofs.Datagram.RoundTrip
import Coap.Proofs.Engine.Acknowledging
import Coap.Proofs.Engine.Answering
import Coap.Proofs.Engine.Asked
import Coap.Proofs.Engine.Charges
import Coap.Proofs.Engine.Clerical
import Coap.Proofs.Engine.Conversations
import Coap.Proofs.Engine.Deadlines
import Coap.Proofs.Engine.Elicited
import Coap.Proofs.Engine.Events
import Coap.Proofs.Engine.Evolution
import Coap.Proofs.Engine.Frames
import Coap.Proofs.Engine.Freshness
import Coap.Proofs.Engine.Hearing
import Coap.Proofs.Engine.Latest
import Coap.Proofs.Engine.Layers
import Coap.Proofs.Engine.Ledger
import Coap.Proofs.Engine.Malformed
import Coap.Proofs.Engine.Notices
import Coap.Proofs.Engine.Origins
import Coap.Proofs.Engine.Outcomes
import Coap.Proofs.Engine.Outstanding
import Coap.Proofs.Engine.Owed
import Coap.Proofs.Engine.Piggybacked
import Coap.Proofs.Engine.Quiet
import Coap.Proofs.Engine.Reacting
import Coap.Proofs.Engine.Rejections
import Coap.Proofs.Engine.Replies
import Coap.Proofs.Engine.Requests
import Coap.Proofs.Engine.Responding
import Coap.Proofs.Engine.Sending
import Coap.Proofs.Engine.Served
import Coap.Proofs.Engine.Stored
import Coap.Proofs.Engine.Told
import Coap.Proofs.Engine.Traffic
import Coap.Proofs.Engine.Unsent
import Coap.Proofs.Exchange.Acknowledgements
import Coap.Proofs.Exchange.Answers
import Coap.Proofs.Exchange.Duplicates
import Coap.Proofs.Exchange.LostIds
import Coap.Proofs.Exchange.OpenIds
import Coap.Proofs.Exchange.Opened
import Coap.Proofs.Exchange.Outcomes
import Coap.Proofs.Exchange.Received
import Coap.Proofs.Exchange.Schedule
import Coap.Proofs.Exchange.Sweeping
import Coap.Proofs.Exchange.Waiting
import Coap.Proofs.Identifier.Accounted
import Coap.Proofs.Identifier.Issued
import Coap.Proofs.Identifier.Reserved
import Coap.Proofs.Identifier.Taken
import Coap.Proofs.LastEvent
import Coap.Proofs.Message.Blocks
import Coap.Proofs.Message.Building
import Coap.Proofs.Message.Editing
import Coap.Proofs.Message.Refused
import Coap.Proofs.Message.Untouched
import Coap.Proofs.Network.Delivery
import Coap.Proofs.Network.Dialogue
import Coap.Proofs.Network.Runs
import Coap.Proofs.Network.Soundness
import Coap.Proofs.Observe.Addressed
import Coap.Proofs.Observe.Circle
import Coap.Proofs.Observe.Fanout
import Coap.Proofs.Observe.Histories
import Coap.Proofs.Observe.Index
import Coap.Proofs.Observe.Lifecycle
import Coap.Proofs.Observe.Listening
import Coap.Proofs.Observe.Numbering
import Coap.Proofs.Observe.Published
import Coap.Proofs.Observe.Removal
import Coap.Proofs.Observe.Shown
import Coap.Proofs.Observe.Teardown
import Coap.Proofs.Observe.Terms
import Coap.Proofs.Observe.Watching
import Coap.Proofs.Option.Spelling
import Coap.Proofs.Path.Naming
import Coap.Proofs.Path.Segments
import Coap.Proofs.Service.Dispatch
import Coap.Proofs.Transfer.Downloads
import Coap.Proofs.Transfer.Isolation
import Coap.Proofs.Transfer.Pieces
import Coap.Proofs.Transfer.Reassembly
import Coap.Proofs.Transfer.Refusals
import Coap.Proofs.Transfer.Slices
import Coap.Proofs.Transfer.Uploads
import Coap.Queue
import Coap.SequenceNumber
import Coap.Server
import Coap.Service.Failure
import Coap.Service.Handler
import Coap.Service.Reaction
import Coap.Service.Request
import Coap.Service.Router
import Coap.Table
import Coap.Text.Invisible
import Coap.Text.Quoted
import Coap.Token
import Coap.Transfer
