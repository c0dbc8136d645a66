import HomeChain.Link

/-!
# Errors of a healthy table

These are the answers of a table that is in order but cannot do what it was asked for. A
table that answers with one of them is as it was before the call.
-/

namespace HomeChain

/-- Why a table declined a request. -/
inductive TableError where
  /-- A table of fixed capacity is full and the key is new. -/
  | capacityExhausted (capacity : Nat)
  /-- Links of width `link` cannot serve the capacity that was asked for. -/
  | capacityTooLarge (requested : Nat) (link : LinkWidth)
  /-- The table holds more entries than the rebuilt one was to have room for. -/
  | belowPopulation (requested len : Nat)
  /-- A table of fixed capacity is never rebuilt. -/
  | notGrowable
deriving DecidableEq, Repr

namespace TableError

/-- The wording of an error. -/
def message : TableError → String
  | capacityExhausted capacity => s!"cannot grow a fixed-capacity ({capacity}) table"
  | capacityTooLarge requested link =>
    s!"capacity {requested} is larger than the max supported {link.maxCapacity} " ++
      s!"for link type `{link.name}`"
  | belowPopulation requested len =>
    s!"cannot rehash to {requested} slots while holding {len} entries"
  | notGrowable => "rehash needs the growable policy"

end TableError

end HomeChain
