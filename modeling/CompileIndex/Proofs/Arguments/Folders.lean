import CompileIndex.Arguments
import CompileIndex.Proofs.Path.Absolute
import Mathlib.Data.List.Forall2
import Mathlib.Data.List.Induction

/-!
# The folders of an invocation

An invocation gives texts for two lists of folders. An absolute text is the folder as it is written,
and any other starts at the working folder, so that no third place matters.
-/
namespace CompileIndex.Arguments

variable {folder : Path}

inductive FolderList
  | includes
  | frameworks
  deriving DecidableEq, Repr

namespace FolderList

def of : FolderList → Metadata → List Path
  | .includes, m => m.includes
  | .frameworks, m => m.frameworkDirectories

def text? : FolderList → Action → Option String
  | .includes, .includeFolder text => some text
  | .frameworks, .frameworkFolder text => some text
  | _, _ => none

/-- The texts that an invocation gives for the list; an empty one does not count. -/
def texts (list : FolderList) (arguments : List String) : List String :=
  ((actions arguments).filterMap list.text?).filter (· ≠ "")

end FolderList

/-- The folder that a text stands for. -/
inductive Denotes (folder : Path) (text : String) : Path → Prop
  | absolute (h : (Path.mk text).isAbsolute) : Denotes folder text ⟨text⟩
  | relative (h : (Path.mk text).isAbsolute = false)
    (hnormal : (folder.join ⟨text⟩).clean.Normal) : Denotes folder text (folder.join ⟨text⟩).clean

theorem FolderList.of_apply (list : FolderList) (folder : Path) (m : Metadata) (action : Action) :
    list.of (apply folder m action) =
      list.of m ++ (list.text? action).toList.filterMap (folder? folder) := by
  cases action with
  | includeFolder text | frameworkFolder text =>
    cases list <;> cases hp : folder? folder text <;> simp [of, text?, apply, hp]
  | define text =>
    by_cases hname : (splitDefinition text).1 = "" <;>
      cases list <;> simp [of, text?, apply, hname]
  | undefine | language | flag => cases list <;> simp [of, text?, apply]

theorem FolderList.of_foldl (list : FolderList) (folder : Path) (actions : List Action) :
    list.of (actions.foldl (apply folder) .empty) =
      (actions.filterMap list.text?).filterMap (folder? folder) := by
  induction actions using List.reverseRecOn with
  | nil => cases list <;> rfl
  | append_singleton actions action ih =>
    rw [List.foldl_append, List.filterMap_append, List.filterMap_append, ← ih]
    exact of_apply list folder _ action

theorem denotes_folder? (hfolder : folder.isAbsolute) {text : String} (htext : text ≠ "") :
    ∃ p, folder? folder text = some p ∧ Denotes folder text p := by
  rw [folder?, if_neg htext]
  cases h : (Path.mk text).isAbsolute with
  | true => exact ⟨_, if_pos rfl, .absolute h⟩
  | false =>
    exact ⟨_, if_neg Bool.false_ne_true, .relative h (Path.normal_resolve hfolder ⟨text⟩)⟩

theorem forall₂_folder? (hfolder : folder.isAbsolute) (texts : List String) :
    List.Forall₂ (Denotes folder) (texts.filter (· ≠ "")) (texts.filterMap (folder? folder)) := by
  induction texts with
  | nil => exact .nil
  | cons text rest ih =>
    by_cases htext : text = ""
    · simpa [htext, folder?] using ih
    · obtain ⟨p, hp, hdenotes⟩ := denotes_folder? hfolder htext
      rw [List.filter_cons_of_pos (by simpa using htext), List.filterMap_cons_some hp]
      exact .cons hdenotes ih

/-- Each text of an invocation adds the folder that it stands for, in their order. -/
theorem folders_classify (hfolder : folder.isAbsolute) (list : FolderList)
    (arguments : List String) :
    List.Forall₂ (Denotes folder) (list.texts arguments) (list.of (classify folder arguments)) := by
  rw [classify, list.of_foldl]
  exact forall₂_folder? hfolder _

end CompileIndex.Arguments
