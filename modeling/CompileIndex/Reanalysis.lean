/-!
# Requests for re-analysis

A bounded queue between those who find that a project has changed and the one who analyses it
again. A request that finds no place is refused, never delayed.
-/
namespace CompileIndex

inductive RequestError
  | tooMany
  | nobodyListening
  deriving DecidableEq, Repr

def RequestError.message : RequestError → String
  | .tooMany => "Re-analysis request failed: too many pending requests"
  | .nobodyListening => "Re-analysis request failed: nobody is listening for requests"

structure RequestQueue (α : Type) where
  capacity : Nat
  waiting : List α
  listening : Bool
  deriving DecidableEq, Repr

namespace RequestQueue

variable {α : Type}

def empty (capacity : Nat) : RequestQueue α := ⟨capacity, [], true⟩

def request (q : RequestQueue α) (a : α) : Except RequestError Unit × RequestQueue α :=
  if !q.listening then (.error .nobodyListening, q)
  else if q.capacity ≤ q.waiting.length then (.error .tooMany, q)
  else (.ok (), { q with waiting := q.waiting ++ [a] })

def receive (q : RequestQueue α) : Option α × RequestQueue α :=
  match q.waiting with
  | [] => (none, q)
  | a :: rest => (some a, { q with waiting := rest })

/-- The listener leaves, and what waits is lost. -/
def close (q : RequestQueue α) : RequestQueue α := { q with waiting := [], listening := false }

end RequestQueue

end CompileIndex
