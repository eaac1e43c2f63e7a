import Silver.Client.Connection.Anonymity
import Silver.Client.Connection.Answers
import Silver.Client.Connection.Confirmations
import Silver.Client.Connection.Reporting
import Silver.Client.Devices.Unlinking
import Silver.Client.Groups.Crossing
import Silver.Client.Groups.Honest
import Silver.Client.Groups.Outsiders
import Silver.Client.Groups.Telling
import Silver.Client.History.Removed
import Silver.Client.Protection.Index
import Silver.Client.Protection.Naming
import Silver.Client.Sequence.Replay
import Silver.Client.Sequence.Arithmetic
import Silver.Client.Store.Rollback
import Silver.Protocol.Body
import Silver.Protocol.Rotation
import Silver.Relay.Accounts.Racing
import Silver.Relay.Accounts.Strangers
import Silver.Relay.Blobs
import Silver.Relay.Groups
import Silver.System.Interleaving
import Silver.System.Sequencing.Attended
import Silver.System.Sequencing.CatchingUp
import Silver.System.Lifetimes
import Silver.System.Accusations
import Silver.Tui.KeyChange
import Silver.Relay.Restore
import Silver.Client.FileNames
