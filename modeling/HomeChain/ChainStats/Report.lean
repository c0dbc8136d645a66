import HomeChain.ChainStats
import HomeChain.Text.Decimal

/-!
# The report on a table's chains

The statistics as lines of text, with a bar for each length of chain. The longest bar has
sixty marks; the others are in proportion, rounded up.
-/

namespace HomeChain.ChainStats

/-- The number of marks in the longest bar. -/
def barWidth : Nat := 60

/-- The whole number at or above `num / den`. -/
def roundUp (num den : Nat) : Nat := (num + den - 1) / den

/-- One line of the histogram: the chains of length `n + 1`, where `most` is the largest
number of chains that have one length. -/
def histogramLine (most n count : Nat) : String :=
  let length := toString (n + 1)
  "".pushn ' ' (3 - length.length) ++ length ++ " | "
    ++ "".pushn '█' (roundUp (count * barWidth) most) ++ s!" ({count})"

/-- The lines of the histogram. -/
def histogramLines (s : ChainStats) : List String :=
  let most := s.histogram.foldl max 0
  if most = 0 then ["chain histogram: empty"]
  else
    s!"chain histogram ({s.chains} chains):"
      :: s.histogram.toList.zipIdx.map fun (count, n) => histogramLine most n count

/-- The share of entries outside their home slot, in percent. -/
def displacedPercent (s : ChainStats) : Float :=
  if s.len = 0 then 0 else toFloat s.displaced / toFloat s.len * 100

/-- The report. -/
def report (s : ChainStats) : List String :=
  let load := Text.fixed 2 (s.loadFactor * 100)
  let mean := Text.fixed 3 s.meanProbeLength
  let displaced := Text.fixed 2 s.displacedPercent
  [ "=== Scatter Table Chain Statistics ===",
    s!"Population: {s.len}/{s.capacity} ({load}% load factor)",
    s!"Chains: {s.chains} (longest {s.longest}, {mean} slots per lookup)",
    s!"Displaced: {s.displaced} entries ({displaced}%)" ]
    ++ s.histogramLines

end HomeChain.ChainStats
