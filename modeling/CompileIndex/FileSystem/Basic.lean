import CompileIndex.Path.Basic

/-!
# File systems

The few questions that are asked of a file system, as functions.
-/
namespace CompileIndex

/-- What reading a file gives: its octets, a refusal with its wording, or the end of the worker
that tried. -/
inductive ReadOutcome
  | octets (content : List UInt8)
  | failed (reason : String)
  | crashed
  deriving DecidableEq, Repr

structure FileSystem where
  has : Path → Bool
  isFolder : Path → Bool
  read : Path → ReadOutcome
  /-- The path of the same place with all links resolved; nothing when there is no such place. -/
  canonical? : Path → Option Path
  glob : String → List Path

end CompileIndex
