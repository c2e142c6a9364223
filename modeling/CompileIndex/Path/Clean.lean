import CompileIndex.Path.Basic

/-!
# Cleaning paths

Removing `.` and `..` by looking at the text alone: `..` takes back the name before it and is
lost directly under the root.
-/
namespace CompileIndex.Path

/-- One more component behind those kept so far, the last of which comes first. -/
def cleanStep (kept : List Component) : Component → List Component
  | .here => kept
  | .up =>
    match kept with
    | .root :: _ => kept
    | .name _ :: rest => rest
    | _ => .up :: kept
  | c => c :: kept

def cleanComponents (cs : List Component) : List Component := (cs.foldl cleanStep []).reverse

/-- The cleaned path; one of which nothing is left is `.`. -/
def clean (p : Path) : Path :=
  match cleanComponents p.components with
  | [] => ⟨"."⟩
  | cs => ofComponents cs

def resolve (base p : Path) : Path := (base.join p).clean

end CompileIndex.Path
