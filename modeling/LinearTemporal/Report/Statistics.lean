import LinearTemporal.Decimal.Layout
import LinearTemporal.Json.Basic
import LinearTemporal.Simplification.Run
import LinearTemporal.Text.Style

/-!
# Reports on a simplification

The metrics of a simplification as one line, as a page of text and as a
document.
-/

namespace LinearTemporal
namespace Simplification
namespace Metrics

/-- One line, with each figure in a color of its own if it is painted. -/
def paintedSummary (m : Metrics) (painted : Bool) : String :=
  let tint (color : Text.Color) (text : String) := Text.Style.paint ⟨color, false⟩ painted text
  tint .cyan m.strategy.name ++ ": " ++ tint .yellow (toString m.initialSize) ++ " -> " ++
    tint .green (toString m.finalSize) ++ " nodes, " ++ tint .magenta (toString m.firings) ++
    " rewrites in " ++ toString m.passes ++ " passes"

def summary (m : Metrics) : String :=
  m.paintedSummary false

def percentSmaller (m : Metrics) : String :=
  Decimal.renderTenths (m.reductionRatio * 100)

def statisticsLines (m : Metrics) : List String :=
  let outcome := if m.converged then "converged" else "pass limit reached"
  let firings := m.ruleCounts.entries.map (fun entry =>
    "  " ++ entry.1 ++ ": " ++ toString entry.2)
  [ "Simplification Statistics:",
    "  Strategy: " ++ m.strategy.name,
    "  Passes: " ++ toString m.passes ++ " (" ++ outcome ++ ")",
    "  Rewrites: " ++ toString m.firings,
    "  Size: " ++ toString m.initialSize ++ " -> " ++ toString m.finalSize ++ " (" ++
      m.percentSmaller ++ "% smaller)" ] ++
    (if firings.isEmpty then [] else "" :: "Rule Firings:" :: firings)

def statistics (m : Metrics) : String :=
  String.join (m.statisticsLines.map (fun line => line ++ "\n"))

def toJson (m : Metrics) : Json :=
  .object
    [ ("strategy", .string m.strategy.name),
      ("passes", .ofNat m.passes),
      ("converged", .bool m.converged),
      ("rewrites", .ofNat m.firings),
      ("rule_counts",
        .object (m.ruleCounts.entries.map (fun entry => (entry.1, .ofNat entry.2)))),
      ("initial_size", .ofNat m.initialSize),
      ("final_size", .ofNat m.finalSize),
      ("reduction_ratio", .decimal (Decimal.renderShortest m.reductionRatio)) ]

end Metrics
end Simplification
end LinearTemporal
