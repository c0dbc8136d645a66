import HomeChain.Link

/-!
# Events

An operation on a table leaves a record of the steps by which it changed, or examined, the
slots. Slots are named by their index.
-/

namespace HomeChain

/-- How much weight an event has. -/
inductive Level where
  /-- One step of an operation. -/
  | trace
  /-- A step that touches the whole table. -/
  | debug
deriving DecidableEq, Repr

/-- The name of a level, as it stands in front of a record. -/
def Level.name : Level → String
  | trace => "TRACE"
  | debug => "DEBUG"

/-- A step that an operation reports. -/
inductive Event where
  /-- A new array of slots. -/
  | allocating (capacity : Nat) (link : LinkWidth)
  /-- The slots are about to be filled anew. -/
  | rebuilding (old new len : Nat)
  /-- The first free slot was taken. -/
  | acquired (slot : Nat)
  /-- A key is to be stored in its free home slot. -/
  | populating (home : Nat)
  /-- The value of a stored key is to be replaced. -/
  | updating (slot : Nat)
  /-- A key is to be stored at the end of its chain. -/
  | appending (slot head : Nat)
  /-- The occupant of a home slot has to move. -/
  | displacing (home spare head : Nat)
  /-- The successor of a removed entry has to move into its place. -/
  | pulling (successor slot : Nat)
  /-- The free list is about to be examined. -/
  | examiningFreeList (free : Nat)
  /-- The chains have been examined. -/
  | examinedChains (chains len : Nat)
deriving DecidableEq, Repr

namespace Event

/-- The weight of an event. -/
def level : Event → Level
  | rebuilding .. => .debug
  | _ => .trace

/-- The wording of an event. That of an allocation leaves out the number of bytes that a slot takes,
which depends on how keys and values are laid out in memory. -/
def message : Event → String
  | allocating capacity link => s!"allocating capacity {capacity}, link type {link.name}"
  | rebuilding old new len => s!"rehashing {old} -> {new} ({len} entries)"
  | acquired slot => s!"  acquired free slot #{slot}"
  | populating home => s!"put: populating free home slot #{home}"
  | updating slot => s!"put: updating existing entry in slot #{slot}"
  | appending slot head => s!"put: appending slot #{slot} to the chain at #{head}"
  | displacing home spare head => s!"put: displacing #{home} -> #{spare} (chain at #{head})"
  | pulling successor slot => s!"remove: displacing #{successor} -> #{slot}"
  | examiningFreeList free => s!"check: validating free list ({free} slot(s))"
  | examinedChains chains len => s!"check: {chains} chain(s) for {len} key(s)"

/-- The record of an event: its level and its wording. -/
def render (e : Event) : String := s!"{e.level.name} {e.message}"

end Event

end HomeChain
