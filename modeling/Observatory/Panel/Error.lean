import Observatory.Config.Basic
import Observatory.DeviceTree.View
import Observatory.Hub.Basic
import Observatory.Text.Duration

/-!
# Why a request to a panel fails

* `OperationError`: why a request about a device fails.
* `PanelError`: why a request to the panel fails.
-/

namespace Observatory

/-- Why a request about a device fails. -/
inductive OperationError where
  /-- The vector does not take the command. -/
  | view (error : ViewError)
  /-- The vector has not settled an earlier command. -/
  | busy (device vector : String)
  /-- The vector answered with an alert. -/
  | alert (device vector : String)
  /-- There is no stream to the server. -/
  | disconnected
  /-- The token of the request was cancelled. -/
  | cancelled
  /-- The time was over. -/
  | timeout (milliseconds : Nat)
  /-- The tree refuses a change. -/
  | store (error : StoreError)
  deriving Repr

/-- The message of an error. -/
def OperationError.message : OperationError → String
  | view e => e.message
  | busy device vector => "vector " ++ device ++ "." ++ vector ++ " is busy"
  | alert device vector => "vector " ++ device ++ "." ++ vector ++ " went to Alert"
  | disconnected => "not connected to the INDI server"
  | cancelled => "operation cancelled"
  | timeout ms => "timed out after " ++ Duration.text ms
  | store e => "store error: " ++ e.message

/-- Why a request to a panel fails. -/
inductive PanelError where
  | config (error : ConfigError)
  | hub (error : HubError)
  | operation (error : OperationError)
  deriving Repr

/-- The message of an error. -/
def PanelError.message : PanelError → String
  | config e => e.message
  | hub e => "sync error: " ++ e.message
  | operation e => "indi error: " ++ e.message

end Observatory
