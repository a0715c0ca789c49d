import Observatory.Binary64.Shortest
import Observatory.Json.Printer
import Observatory.Json.Reader
import Observatory.ArrayIndex
import Observatory.Clock
import Observatory.Selector
import Observatory.Diff.Wire
import Observatory.Store.Basic
import Observatory.Watch.Action
import Observatory.Hub.Basic
import Observatory.Indi.Framer
import Observatory.Text.Quoted
import Observatory.Text.Blank
import Observatory.Xml.Element
import Observatory.Indi.Message
import Observatory.Indi.Command
import Observatory.DeviceTree.Writer
import Observatory.DeviceTree.View
import Observatory.Indi.Queue
import Observatory.Config.Reader
import Observatory.Text.Duration
import Observatory.Connection.Basic
import Observatory.Panel.Basic
import Observatory.Panel.Lifecycle
import Observatory.Panel.Call
import Observatory.DeviceTree.Condition
import Observatory.Rehearsal.Time
import Observatory.Proofs.Selector
import Observatory.Proofs.Store.Since
import Observatory.Proofs.Store.Fingerprint
import Observatory.Proofs.Diff.Apply
import Observatory.Proofs.Diff.Wire
import Observatory.Proofs.Store.View
import Observatory.Proofs.Hub.Clients
import Observatory.Proofs.Hub.Quiet
import Observatory.Proofs.Indi.Drain
import Observatory.Proofs.Indi.Chunks
import Observatory.Proofs.Text.Utf8
import Observatory.Proofs.Indi.Stream
import Observatory.Proofs.Indi.Nesting
import Observatory.Proofs.Indi.Oversized
import Observatory.Proofs.Indi.SizeLimit
import Observatory.Proofs.Xml.Escape
import Observatory.Proofs.Xml.Scan
import Observatory.Proofs.Indi.Outbound
import Observatory.Proofs.Indi.Faithful
import Observatory.Proofs.Indi.Ledger
import Observatory.Proofs.Indi.Deadline
import Observatory.Proofs.Indi.Spacing
import Observatory.Proofs.Watch.Lookout
import Observatory.Proofs.Watch.Pass
import Observatory.Proofs.Watch.Instances
import Observatory.Proofs.Watch.Noticed
import Observatory.Proofs.Store.Alike
import Observatory.Proofs.Store.Consumer
import Observatory.Proofs.Store.Hidden
import Observatory.Proofs.Store.Noninterference
import Observatory.Proofs.Store.Checked
import Observatory.Proofs.Store.CheckedMove
import Observatory.Proofs.Store.Audience
import Observatory.Proofs.Json.Same
import Observatory.Proofs.Store.Plain
import Observatory.Proofs.Store.Refinement
import Observatory.Proofs.Store.Reporting
import Observatory.Proofs.Store.Origin
import Observatory.Proofs.Store.Minimal
import Observatory.Proofs.Store.History
import Observatory.Proofs.Store.Keyless
import Observatory.Proofs.Json.Alter
import Observatory.Proofs.DeviceTree.Projection
import Observatory.Proofs.DeviceTree.Shown
import Observatory.Proofs.DeviceTree.Writing
import Observatory.Proofs.DeviceTree.Throttle
import Observatory.Proofs.DeviceTree.Lasting
import Observatory.Proofs.DeviceTree.Marking
import Observatory.Proofs.DeviceTree.MessageLog
import Observatory.Proofs.DeviceTree.Retention
import Observatory.Proofs.DeviceTree.Partition
import Observatory.Proofs.DeviceTree.Completion
import Observatory.Proofs.Hub.Spared
import Observatory.Proofs.Panel.Run
import Observatory.Proofs.Panel.Status
import Observatory.Proofs.Panel.Reception
import Observatory.Proofs.Panel.Vigil
import Observatory.Proofs.Panel.Wakeup
import Observatory.Proofs.Panel.Isolation
import Observatory.Proofs.Panel.Commands
import Observatory.Proofs.Panel.Answer
