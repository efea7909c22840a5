import Sweep.CommandLine.Reading
import Sweep.Machine
import Sweep.Report
/-!
# The program

A run reads the command line, loads the settings, does the task and prints its report. It ends with
the code 0, with 2 if the arguments are refused, and with 1 if the settings cannot be loaded; then
nothing is printed.
-/

namespace Sweep

/-- What a run leaves behind. -/
structure Outcome where
  code : Nat
  output : Text
  deriving DecidableEq, Repr

namespace Program

/-- The line that tells the version. -/
def versionLine : Text := "scanscope 0.1.0\n".toList

/-- The line that tells the usage. -/
def usageLine : Text := "Usage: scanscope [OPTIONS] <COMMAND>\n".toList

/-- How a run ends that has no task. -/
def answer : CommandLine.Usage → Outcome
  | .help => ⟨0, usageLine⟩
  | .version => ⟨0, versionLine⟩
  | _ => ⟨2, []⟩

/-- The settings of the file that is named, or those of the system. -/
def settings (m : Machine) (file : Option Path) : Except Settings.Fault Settings :=
  match file with
  | some p => Settings.load (m.source p)
  | none => Settings.loadLayers m.layers

/-- The report on a task. -/
def report (m : Machine) (s : Settings) : Task → Text
  | .plan explain =>
    let (plan, notices) := Plan.make s.policy m.mounts
    Report.ofPlan plan (if explain then some (Notice.decisions notices) else none)
  | .walk => Report.ofWalk (Plan.ofPolicy s.policy m.mounts) m.files
  | .check paths =>
    Report.ofChecks ((Memo.new s.lifetime 0).setRules 0 (RuleSet.ofPolicy s.policy)).2 0 paths

/-- Runs the program. All checks take place at one time. -/
def run (m : Machine) (args : List CommandLine.Argument) : Outcome :=
  match CommandLine.parse m.hasFile args with
  | .error usage => answer usage
  | .ok line =>
    match settings m line.settingsFile with
    | .error _ => ⟨1, []⟩
    | .ok s => ⟨0, report m s line.task⟩

end Program

end Sweep
