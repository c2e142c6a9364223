import CompileIndex.FileSystem.Basic

/-!
# Surveys

What a file system answered to the questions it was asked in advance. A survey stands for a
file system as long as no other questions come up; to those it answers that nothing is there.
-/
namespace CompileIndex

structure Sight where
  isFolder : Bool
  canonical : Path
  deriving DecidableEq, Repr

structure Survey where
  sights : List (Path × Sight)
  contents : List (Path × ReadOutcome)
  found : List (String × List Path)

namespace Survey

def empty : Survey := ⟨[], [], []⟩

def append (s t : Survey) : Survey :=
  ⟨s.sights ++ t.sights, s.contents ++ t.contents, s.found ++ t.found⟩

def sight? (s : Survey) (p : Path) : Option Sight := s.sights.lookup p

def fileSystem (s : Survey) : FileSystem where
  has p := (s.sight? p).isSome
  isFolder p := (s.sight? p).any (·.isFolder)
  read p := (s.contents.lookup p).getD (.failed "File not found")
  canonical? p := (s.sight? p).map (·.canonical)
  glob pattern := (s.found.lookup pattern).getD []

end Survey

end CompileIndex
