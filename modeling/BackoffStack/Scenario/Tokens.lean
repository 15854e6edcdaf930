/-
Scripted runs over thread tokens: threads ask for theirs and end.
-/
import BackoffStack.Scenario.Reply

namespace BackoffStack.TokenScenario

/-- A step of a run. -/
inductive Step where
  /-- The thread asks for its token. -/
  | ask (t : Nat)
  /-- The thread ends; on its way out it asks once more. -/
  | exit (t : Nat)

/-- One step: what the thread is told. -/
def step (ts : Threads) : Step → Except Status ThreadToken × Threads
  | .ask t => ts.ask t
  | .exit t =>
    let (answer, ts) := (ts.beginExit t).ask t
    (answer, ts.finishExit t)

/-- A run from the start. -/
def run (steps : List Step) : List (Except Status ThreadToken) :=
  go {} steps
where
  go (ts : Threads) : List Step → List (Except Status ThreadToken)
    | [] => []
    | s :: rest => let (answer, ts) := step ts s; answer :: go ts rest

end BackoffStack.TokenScenario
