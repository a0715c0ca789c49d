import Observatory.DeviceTree.Layout
import Observatory.Indi.Framer
import Observatory.Indi.Queue
import Observatory.Json.Basic

/-!
# The configuration of a panel

* `PanelConfig`: the settings of the connection and of the hub.
* `PanelConfig.validate`: the rules that settings must obey.
* `PanelConfig.framer`, `PanelConfig.queue`, `PanelConfig.layout`: what is set up with them.
* `ConfigError`: why a configuration is refused.
-/

namespace Observatory

/-- The settings of the connection.  Times are in milliseconds. -/
structure ServerConfig where
  host : String := "localhost"
  port : Nat := 7624
  reconnectDelay : Nat := 3000
  messageLevel : Nat := 0
  maxMessageSize : Nat := 1048576
  expiration : Nat := 500
  delayableVectors : List String := ["CCD_EXPOSURE"]
  maxMessages : Nat := 100
  deriving DecidableEq, Repr

/-- The settings of the hub. -/
structure HubConfig where
  treePath : List String := ["deviceTree"]
  messagesPath : List String := ["messages"]
  maxPasses : Nat := 16
  deriving DecidableEq, Repr

/-- All settings. -/
structure PanelConfig where
  server : ServerConfig := {}
  hub : HubConfig := {}
  deriving DecidableEq, Repr

/-- The rules that settings can break. -/
inductive ConfigFault where
  | zeroPort
  | zeroMessageSize
  | emptyPath
  | samePaths
  | zeroPasses
  deriving DecidableEq, Repr

/-- Why a configuration is refused. -/
inductive ConfigError where
  /-- There is no file, or it is no text. -/
  | unreadable
  /-- The text is no JSON, or a setting has no such value. -/
  | undecodable
  /-- The settings break a rule. -/
  | invalid (fault : ConfigFault)
  deriving DecidableEq, Repr

/-- The explanation of a fault. -/
def ConfigFault.text : ConfigFault → String
  | zeroPort => "indi.port cannot be 0"
  | zeroMessageSize => "indi.max_message_size cannot be 0"
  | emptyPath => "store paths cannot be empty"
  | samePaths => "device tree and message log need distinct paths"
  | zeroPasses => "hub.max_passes cannot be 0"

/-- The message of an error. -/
def ConfigError.message : ConfigError → String
  | unreadable => "io error"
  | undecodable => "parse error"
  | invalid fault => "invalid configuration: " ++ fault.text

namespace PanelConfig

/-- The first rule that the settings break. -/
def fault? (c : PanelConfig) : Option ConfigFault :=
  if c.server.port = 0 then some .zeroPort
  else if c.server.maxMessageSize = 0 then some .zeroMessageSize
  else if c.hub.treePath = [] ∨ c.hub.messagesPath = [] then some .emptyPath
  else if c.hub.treePath = c.hub.messagesPath then some .samePaths
  else if c.hub.maxPasses = 0 then some .zeroPasses
  else none

/-- The settings, if they obey the rules. -/
def validate (c : PanelConfig) : Except ConfigError PanelConfig :=
  match c.fault? with
  | some fault => .error (.invalid fault)
  | none => .ok c

/-! ### What is set up -/

/-- The framer of a connection. -/
def framer (c : PanelConfig) : Framer :=
  { level := c.server.messageLevel, limit := c.server.maxMessageSize }

/-- The queue of a connection. -/
def queue (c : PanelConfig) : MessageQueue :=
  { expiration := c.server.expiration, delayable := c.server.delayableVectors }

/-- The layout of the device tree. -/
def layout (c : PanelConfig) : Layout :=
  { treePath := c.hub.treePath, messagesPath := c.hub.messagesPath,
    maxMessages := c.server.maxMessages }

end PanelConfig

end Observatory
