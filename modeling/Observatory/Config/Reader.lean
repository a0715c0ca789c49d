import Observatory.Config.Basic
import Observatory.Json.Reader

/-!
# Reading a configuration

A configuration is written in JSON.  A group of settings is an object, or an array of its
settings in order.  Settings that are missing have their standard values, and unknown ones are
passed over, whatever they are; a setting is given once at most.

* `Settings.slots?`: the settings of a group.
* `PanelConfig.parse`, `PanelConfig.ofFile`: the configuration of a text, of a file.
* `PanelConfig.toJson`: the written form.
-/

namespace Observatory

open Json (Source)

/-! ### Groups of settings -/

namespace Settings

/-- The keys of some settings. -/
def serverKeys : List String :=
  ["host", "port", "reconnect_delay_ms", "message_level", "max_message_size",
    "default_expiration_ms", "delayable_vectors", "max_messages"]

/-- The keys of some settings. -/
def hubKeys : List String := ["tree_path", "messages_path", "max_passes"]

/-- The keys of the groups. -/
def groupKeys : List String := ["indi", "hub"]

/-- The settings of an object by key, if every key is a text. -/
def byKey? (fields : List (Option String × Source)) : Option (List (String × Source)) :=
  fields.mapM fun p => p.1.map fun key => (key, p.2)

/-- The setting under a key; nothing when there is more than one. -/
def single? (fields : List (String × Source)) (key : String) : Option (Option Source) :=
  match fields.filter fun p => p.1 = key with
  | [] => some none
  | [p] => some (some p.2)
  | _ => none

/-- The settings of a group in the order of their keys, each if it is given. -/
def slots? (keys : List String) : Source → Option (List (Option Source))
  | .obj fields => do
    let fields ← byKey? fields
    keys.mapM (single? fields)
  | .arr items =>
    if items.length ≤ keys.length then
      some (items.map some ++ List.replicate (keys.length - items.length) none)
    else none
  | _ => none

/-- A setting, or its standard value when it is not given. -/
def given? {α : Type} (read? : Source → Option α) (standard : α) : Option Source → Option α
  | none => some standard
  | some s => read? s

/-- The text that a source writes. -/
def text? : Source → Option String
  | .str t => t
  | _ => none

/-- The texts that a source writes. -/
def texts? : Source → Option (List String)
  | .arr items => items.mapM text?
  | _ => none

/-- The natural number of some bits that a source writes. -/
def natural? (bits : Nat) : Source → Option Nat
  | .number literal =>
    match literal.value? with
    | some (.int n) => if 0 ≤ n ∧ n < Nat.pow 2 bits then some n.toNat else none
    | _ => none
  | _ => none

/-- The settings of the connection. -/
def server? (s : Source) : Option ServerConfig := do
  let standard : ServerConfig := {}
  match ← slots? serverKeys s with
  | [host, port, delay, level, size, expiration, delayable, messages] =>
    some {
      host := ← given? text? standard.host host
      port := ← given? (natural? 16) standard.port port
      reconnectDelay := ← given? (natural? 64) standard.reconnectDelay delay
      messageLevel := ← given? (natural? 64) standard.messageLevel level
      maxMessageSize := ← given? (natural? 64) standard.maxMessageSize size
      expiration := ← given? (natural? 64) standard.expiration expiration
      delayableVectors := ← given? texts? standard.delayableVectors delayable
      maxMessages := ← given? (natural? 64) standard.maxMessages messages }
  | _ => none

/-- The settings of the hub. -/
def hub? (s : Source) : Option HubConfig := do
  let standard : HubConfig := {}
  match ← slots? hubKeys s with
  | [tree, messages, passes] =>
    some {
      treePath := ← given? texts? standard.treePath tree
      messagesPath := ← given? texts? standard.messagesPath messages
      maxPasses := ← given? (natural? 64) standard.maxPasses passes }
  | _ => none

/-- All settings. -/
def panel? (s : Source) : Option PanelConfig := do
  match ← slots? groupKeys s with
  | [server, hub] =>
    some { server := ← given? server? {} server, hub := ← given? hub? {} hub }
  | _ => none

end Settings

/-! ### Configurations -/

namespace PanelConfig

/-- The settings that a text writes. -/
def decode? (text : String) : Option PanelConfig := (Source.read? text).bind Settings.panel?

/-- The configuration of a text. -/
def parse (text : String) : Except ConfigError PanelConfig :=
  match decode? text with
  | some c => c.validate
  | none => .error .undecodable

/-- The configuration of a file, given its bytes if there is one. -/
def ofFile (bytes : Option (List UInt8)) : Except ConfigError PanelConfig :=
  match bytes.bind fun bs => String.fromUTF8? bs.toByteArray with
  | some text => parse text
  | none => .error .unreadable

/-- The texts of a list. -/
def textList (texts : List String) : Json := .arr (texts.map .str)

/-- The written form of a configuration. -/
def toJson (c : PanelConfig) : Json :=
  .obj (Dict.ofPairs [
    ("indi", .obj (Dict.ofPairs [
      ("host", .str c.server.host), ("port", .nat c.server.port),
      ("reconnect_delay_ms", .nat c.server.reconnectDelay),
      ("message_level", .nat c.server.messageLevel),
      ("max_message_size", .nat c.server.maxMessageSize),
      ("default_expiration_ms", .nat c.server.expiration),
      ("delayable_vectors", textList c.server.delayableVectors),
      ("max_messages", .nat c.server.maxMessages)])),
    ("hub", .obj (Dict.ofPairs [
      ("tree_path", textList c.hub.treePath), ("messages_path", textList c.hub.messagesPath),
      ("max_passes", .nat c.hub.maxPasses)]))])

end PanelConfig

end Observatory
