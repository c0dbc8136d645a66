import HomeChain.ChainStats.Report
import HomeChain.Consistency.Check
import HomeChain.Demo.Options
import HomeChain.Table.Bulk

/-!
# The demonstration

Fills a table of fixed capacity with keys at equal distances, examines it and reports on its
chains. What a run writes, and the code it exits with, is a value: a `Transcript`.
-/

namespace HomeChain.Demo

/-- What a run writes, line by line, and its exit code. -/
structure Transcript where
  exit : Nat
  stdout : List String
  stderr : List String
deriving DecidableEq, Repr

/-- The tables that the demonstration fills. -/
abbrev DemoTable := Table .bits32 UInt64 UInt64

/-- The number of keys to fill a table of some capacity with. -/
def keyCount (capacity load : Nat) : Nat := capacity * min load 100 / 100

/-- The entries to fill a table with: `i` under the key `i * stride`, in 64-bit words. -/
def demoEntry (stride : UInt64) (i : Nat) : UInt64 × UInt64 :=
  (i.toUInt64 * stride, i.toUInt64)

/-- Fills and examines a table and reports on it, after the lines `written` so far. -/
def fillAndReport (options : Options) (t : DemoTable) (written : List String) :
    Traced Transcript := do
  let count := keyCount t.capacity options.load
  let announced := written ++
    [ s!"Actual capacity: {t.capacity}",
      s!"Filling table with {count} keys (stride {options.stride})..." ]
  let progress ← t.putAll count (demoEntry options.stride)
  let stderr :=
    match progress.failed with
    | some (key, e) => [s!"put({key}) failed: {e.message}"]
    | none => []
  let stdout := announced ++ [s!"Inserted {progress.table.len} values into table"]
  match ← progress.table.check with
  | .error d => return ⟨1, stdout, stderr ++ [s!"table is inconsistent: {d.message}"]⟩
  | .ok () =>
    let stats ← progress.table.chainStats
    return ⟨0, stdout ++ stats.report, stderr⟩

/-- What stands in for the usual hash when the demonstration is run as a program: a multiplication
by an odd word, of which the high bits are kept. The usual hash itself is not defined here; what is
said about `run` is said for any hash in its place. -/
def usualHash (key : UInt64) : UInt64 :=
  (Hash.Mixer.multiplyShift 0x9e3779b97f4a7c15 32).apply (HashKey.hash key)

/-- The hash that a way of hashing stands for, where `usual` is the usual one. -/
def Hasher.hash (usual : UInt64 → UInt64) : Hasher → UInt64 → UInt64
  | .usual => usual
  | .identity => HashKey.hash

/-- Runs the demonstration, where `usual` is the usual hash. -/
def run (usual : UInt64 → UInt64) (options : Options) : Traced Transcript := do
  let opening :=
    [s!"Creating FixedScatterTable with target capacity: {options.targetCapacity}"]
  let hash := options.hasher.hash usual
  match ← Table.withCapacity .fixed hash options.targetCapacity with
  | .error e => return ⟨1, opening, [s!"cannot create table: {e.message}"]⟩
  | .ok t => fillAndReport options t opening

end HomeChain.Demo
