/-
The configuration of component caching, and updates that set some of its parameters.
-/

namespace ModelCount

structure Config where
  /-- Whether the counts of components are cached. -/
  caching : Bool := true
  /-- The number of bytes past which the cache is compacted. -/
  maxBytes : Nat := 1 <<< 30
  deriving DecidableEq, Repr

instance : Inhabited Config := ⟨{}⟩

/-- A parameter that is not set keeps its value. -/
structure ConfigUpdate where
  caching : Option Bool := none
  maxBytes : Option Nat := none
  deriving DecidableEq, Repr

namespace ConfigUpdate

instance : Inhabited ConfigUpdate := ⟨{}⟩

/-- The update that does what `u` and then `later` do. -/
def merge (u later : ConfigUpdate) : ConfigUpdate where
  caching := later.caching <|> u.caching
  maxBytes := later.maxBytes <|> u.maxBytes

end ConfigUpdate

def Config.apply (c : Config) (u : ConfigUpdate) : Config where
  caching := u.caching.getD c.caching
  maxBytes := u.maxBytes.getD c.maxBytes

end ModelCount
