import CompileIndex.Path.Basic

/-!
# Languages of source files
-/
namespace CompileIndex

/-- The language that the extension of a file stands for; empty when there is none. -/
def languageOf (p : Path) : String :=
  match p.extension? with
  | some "c" => "C"
  | some "cc" | some "cpp" | some "cxx" | some "c++" | some "C" => "C++"
  | some "m" => "Objective-C"
  | some "mm" => "Objective-C++"
  | some "cu" => "CUDA"
  | _ => ""

end CompileIndex
