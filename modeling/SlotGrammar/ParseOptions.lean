/-!
# Options of a parse

A parse may be run with or without its caches, and says how much text its fatal
errors quote.
-/

namespace SlotGrammar

/-- How many code points a fatal error quotes before and after the offending
one. -/
structure ErrorWindow where
  before : Nat := 20
  after : Nat := 4
deriving DecidableEq, Inhabited

/-- The options of one parse. -/
structure ParseOptions where
  /-- Whether recognizers with a cache may record and replay outcomes. -/
  cache : Bool := true
  /-- How much text fatal errors quote. -/
  errorWindow : ErrorWindow := {}
deriving DecidableEq, Inhabited

namespace ParseOptions

/-- The options of a parse for which nothing is asked. -/
def standard : ParseOptions := {}

/-- The same options with caches used or left alone. -/
def withCache (o : ParseOptions) (cache : Bool) : ParseOptions := { o with cache }

/-- The same options with another error window. -/
def withErrorWindow (o : ParseOptions) (errorWindow : ErrorWindow) : ParseOptions :=
  { o with errorWindow }

/-- The standard options, with caches left alone. -/
def uncached : ParseOptions := standard.withCache false

/-- Turning the caches back on restores the standard options. -/
@[simp]
theorem uncached_withCache_true : uncached.withCache true = standard := rfl

end ParseOptions

end SlotGrammar
