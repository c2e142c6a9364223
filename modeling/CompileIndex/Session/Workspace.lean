import CompileIndex.Session.Query

/-!
# A session at work

A session with what goes on around it: completions that have arrived and wait for the session,
and requests for re-analysis that wait for the listener.
-/
namespace CompileIndex

structure Workspace where
  session : Session
  arrived : List Completion
  requests : RequestQueue ProjectId

def Trigger.queue : Trigger (RequestQueue ProjectId) := fun project q => q.request project

namespace Workspace

def empty (capacity : Nat) : Workspace := ⟨.empty, [], .empty capacity⟩

def finishJob (env : Shell.Environment) (fs : FileSystem) (w : Workspace) (job : Job) :
    Workspace :=
  if job ∈ w.session.running then
    { w with
      session := { w.session with running := w.session.running.erase job }
      arrived := w.arrived ++ [job.run env fs] }
  else w

def settle (env : Shell.Environment) (fs : FileSystem) (w : Workspace) : Workspace :=
  (w.session.running.mergeSort Job.before).foldl (finishJob env fs) w

/-- Gives a completion to the session, wherever it comes from. -/
def deliver (w : Workspace) (c : Completion) : Option Finished × Workspace :=
  let (finished, session, requests) := w.session.handle Trigger.queue c w.requests
  (finished, { w with session, requests })

def handleNext (w : Workspace) : Option (Completion × Option Finished) × Workspace :=
  match w.arrived with
  | [] => (none, w)
  | c :: rest =>
    let (finished, w) := { w with arrived := rest }.deliver c
    (some (c, finished), w)

def handleAll (w : Workspace) : List (Completion × Option Finished) × Workspace :=
  w.arrived.foldl (fun (results, w) c =>
    let (finished, w) := w.deliver c
    (results ++ [(c, finished)], w)) ([], { w with arrived := [] })

def receive (w : Workspace) : Option ProjectId × Workspace :=
  let (project, requests) := w.requests.receive
  (project, { w with requests })

def drain (w : Workspace) : List ProjectId × Workspace :=
  (w.requests.waiting, { w with requests := { w.requests with waiting := [] } })

end Workspace

end CompileIndex
