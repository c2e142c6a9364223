import CompileIndex.Session.ProjectId
import CompileIndex.Snapshot

/-!
# Imports and their results

An import runs as a job beside the session. Its completion is judged by the session, which then
reports what came of it.
-/
namespace CompileIndex

/-- An import in flight. Generations number the imports of a session. -/
structure Job where
  project : ProjectId
  generation : Nat
  source : Path
  deriving DecidableEq, Repr

structure Completion where
  project : ProjectId
  generation : Nat
  result : Except Failure Snapshot

namespace Completion

/-- A failed import has not come to skip anything. -/
def skippedEntries (c : Completion) : Nat :=
  match c.result with
  | .ok s => s.skipped.length
  | .error _ => 0

def isValid (c : Completion) : Bool := c.result.toBool

def fileCount (c : Completion) : Nat :=
  match c.result with
  | .ok s => s.files.size
  | .error _ => 0

end Completion

inductive Outcome
  | merged (changed : Bool)
  | failed (reason : Failure)
  deriving DecidableEq, Repr

structure Finished where
  project : ProjectId
  outcome : Outcome
  fileCount : Nat
  skippedEntries : Nat
  deriving DecidableEq, Repr

namespace Finished

def succeeded (f : Finished) : Bool :=
  match f.outcome with
  | .merged _ => true
  | .failed _ => false

def changed (f : Finished) : Bool := f.outcome == .merged true

end Finished

end CompileIndex
