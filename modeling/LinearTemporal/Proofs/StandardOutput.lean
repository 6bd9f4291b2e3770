import LinearTemporal.CommandLine.Program
import LinearTemporal.Proofs.DecimalText
import LinearTemporal.Proofs.ScriptRuns

/-!
# The standard output of a simplification

What is printed where JSON is asked for.  Whatever a formula is simplified to, and whatever is
measured on the way, the report on it is a document that can be printed as JSON.  All else that is
done before is silent, so that the report stands alone, except that a comparison of measures is
printed first if it is asked for, whatever the format.
-/

namespace LinearTemporal

open Json

/-!
## Reports as documents

Only the ratio in a report is a number that is kept as text.
-/

theorem Json.haveNumbersIn_iff {members : List (String × Json)} :
    HaveNumbersIn members ↔ ∀ member ∈ members, member.2.HasNumbers := by
  induction members with
  | nil => exact ⟨nofun, fun _ => trivial⟩
  | cons member members ih => rw [HaveNumbersIn, ih, List.forall_mem_cons]

theorem Term.hasNumbers_toJson (t : Term) : t.toJson.HasNumbers := by
  induction t with
  | var name => exact ⟨trivial, trivial⟩
  | int value => exact ⟨trivial, trivial⟩
  | neg body ih => exact ⟨ih, trivial⟩
  | binary op left right ihl ihr => exact ⟨⟨ihl, ihr, trivial⟩, trivial⟩

namespace Formula

mutual

theorem hasNumbers_toJson : (f : Formula) → f.toJson.HasNumbers
  | const _ => ⟨trivial, trivial⟩
  | literal _ _ => ⟨⟨trivial, trivial, trivial⟩, trivial⟩
  | atom left _ right =>
      ⟨⟨left.hasNumbers_toJson, trivial, right.hasNumbers_toJson, trivial⟩, trivial⟩
  | not body => ⟨hasNumbers_toJson body, trivial⟩
  | next body => ⟨hasNumbers_toJson body, trivial⟩
  | always body => ⟨hasNumbers_toJson body, trivial⟩
  | eventually body => ⟨hasNumbers_toJson body, trivial⟩
  | untl left right => ⟨⟨hasNumbers_toJson left, hasNumbers_toJson right, trivial⟩, trivial⟩
  | release left right => ⟨⟨hasNumbers_toJson left, hasNumbers_toJson right, trivial⟩, trivial⟩
  | junction .and operands => ⟨haveNumbers_toJsonAll operands, trivial⟩
  | junction .or operands => ⟨haveNumbers_toJsonAll operands, trivial⟩

theorem haveNumbers_toJsonAll : (fs : List Formula) → HaveNumbers (toJsonAll fs)
  | [] => trivial
  | f :: fs => ⟨hasNumbers_toJson f, haveNumbers_toJsonAll fs⟩

end

end Formula

theorem Simplification.Metrics.hasNumbers_toJson (m : Simplification.Metrics) :
    m.toJson.HasNumbers := by
  have hcounts : HaveNumbersIn
      (m.ruleCounts.entries.map (fun entry => (entry.1, .ofNat entry.2))) := by
    rw [haveNumbersIn_iff, List.forall_mem_map]
    exact fun _ _ => trivial
  exact ⟨trivial, trivial, trivial, trivial, hcounts, trivial, trivial,
    Decimal.isNumber_renderShortest _, trivial⟩

namespace CommandLine

open Session

/-- In a run with these events the settings are read first, and they are these. -/
def Loads (options : Options) (events : List Event) (settings : Settings) : Prop :=
  ∃ before painted middle after, events = before ++ (middle ++ after) ∧
    paintsByDefault.Runs before painted ∧ (settingsFor options).Ends painted middle (.ok settings)

theorem Loads.unique {options : Options} {events : List Event} {settings settings' : Settings}
    (h : Loads options events settings) (h' : Loads options events settings') :
    settings = settings' := by
  rcases h with ⟨before, painted, middle, after, rfl, hpainted, hsettings⟩
  rcases h' with ⟨before', painted', middle', after', heq, hpainted', hsettings'⟩
  rcases hpainted.unique hpainted' heq with ⟨rfl, rfl⟩
  rw [List.append_cancel_left_eq] at heq
  cases (Script.Runs.unique hsettings hsettings' heq).2
  rfl

end CommandLine
end LinearTemporal
