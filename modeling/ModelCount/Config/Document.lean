/-
Configurations as TOML text. An update refuses every key that is not a parameter; a whole
configuration ignores such keys, and its missing parameters have their defaults. Only whoever runs the program from
outside reads and writes text; counting takes configurations and updates as they are.
-/
import ModelCount.Config.Basic
import ModelCount.Toml.Document

namespace ModelCount

open Toml (Value Document)

/-- The parameters as they are called in text. -/
inductive ConfigKey
  | caching
  | maxBytes
  deriving DecidableEq, Repr

namespace ConfigKey

def text : ConfigKey → String
  | caching => "perform_component_caching"
  | maxBytes => "cache_max_bytes"

def ofText? (s : String) : Option ConfigKey :=
  [caching, maxBytes].find? fun k => k.text == s

end ConfigKey

namespace ConfigUpdate

/-- Why an update is refused. -/
def unreadable : String := "Could not parse component configuration"

/-- Sets a parameter that is not set yet to a value of its type. -/
def setKey (u : ConfigUpdate) (key : ConfigKey) (v : Value) : Option ConfigUpdate :=
  match key, v with
  | .caching, .boolean b => if u.caching.isSome then none else some { u with caching := some b }
  | .maxBytes, .integer n =>
    if u.maxBytes.isSome || decide (n < 0) then none else some { u with maxBytes := some n.toNat }
  | _, _ => none

/-- Sets the parameters of all pairs. `strict` refuses other keys. -/
def ofPairs (strict : Bool) (pairs : List (String × Value)) : Option ConfigUpdate :=
  pairs.foldlM (fun u (name, v) =>
    match ConfigKey.ofText? name with
    | some key => u.setKey key v
    | none => if strict then none else some u) {}

/-- The update that a text describes. -/
def ofToml? (text : String) : Option ConfigUpdate := do
  let d ← Document.ofText? text
  if !d.sections.isEmpty then failure
  ofPairs true d.top

end ConfigUpdate

namespace Config

/-- The configuration that a text describes. No parameter is a table, and no table comes twice. -/
def ofToml? (text : String) : Option Config := do
  let d ← Document.ofText? text
  let headers := d.sections.map Prod.fst
  if headers.any fun h => h.path.head?.any fun name => (ConfigKey.ofText? name).isSome then failure
  if !Toml.headersAgree [] headers then failure
  return ({} : Config).apply (← ConfigUpdate.ofPairs false d.top)

def toToml (c : Config) : String :=
  ConfigKey.caching.text ++ " = " ++ toString c.caching ++ "\n"
    ++ ConfigKey.maxBytes.text ++ " = " ++ toString c.maxBytes ++ "\n"

end Config

end ModelCount
