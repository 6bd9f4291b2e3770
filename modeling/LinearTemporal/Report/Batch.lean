import LinearTemporal.Batch
import LinearTemporal.Report.Statistics
import LinearTemporal.Text.Columns

/-!
# Reports on a batch
-/

namespace LinearTemporal
namespace Batch

namespace Entry

def line (entry : Entry) : String :=
  "  " ++ Text.padLeft 4 (toString entry.item.line) ++ ": " ++ entry.item.input ++ "  =>  " ++
    entry.output

def toJson (entry : Entry) : Json :=
  .object
    [ ("line", .ofNat entry.item.line),
      ("input", .string entry.item.input),
      ("output", .string entry.output),
      ("metrics", entry.metrics.toJson) ]

end Entry

namespace Failure

def lines (failure : Failure) : List String :=
  [ "  Line " ++ toString failure.item.line ++ ": " ++ failure.item.input,
    "    Error: " ++ failure.cause.message ]

def toJson (failure : Failure) : Json :=
  .object
    [ ("line", .ofNat failure.item.line),
      ("input", .string failure.item.input),
      ("error", .string failure.cause.message) ]

end Failure

namespace Outcome

def initialSize (outcome : Outcome) : Nat :=
  outcome.entries.foldr (fun entry rest => entry.metrics.initialSize + rest) 0

def finalSize (outcome : Outcome) : Nat :=
  outcome.entries.foldr (fun entry rest => entry.metrics.finalSize + rest) 0

def countLines (outcome : Outcome) : List String :=
  [ "",
    "Batch Processing Summary:",
    "  Total: " ++ toString outcome.total,
    "  Nodes: " ++ toString outcome.initialSize ++ " -> " ++ toString outcome.finalSize ]

def simplifiedCount (outcome : Outcome) : String :=
  "Simplified: " ++ toString outcome.entries.length

def skippedLines (outcome : Outcome) : List String :=
  if outcome.skipped = 0 then [] else ["  Skipped: " ++ toString outcome.skipped]

def failureLines (outcome : Outcome) : List String :=
  if outcome.failures.isEmpty then []
  else "" :: "Failed formulas:" :: outcome.failures.flatMap Failure.lines

def toJson (file : String) (outcome : Outcome) : Json :=
  .object
    [ ("file", .string file),
      ("total", .ofNat outcome.total),
      ("entries", .array (outcome.entries.map Entry.toJson)),
      ("failures", .array (outcome.failures.map Failure.toJson)) ]

end Outcome

end Batch
end LinearTemporal
