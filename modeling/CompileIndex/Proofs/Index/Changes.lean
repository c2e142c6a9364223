import CompileIndex.Proofs.Index.Imports
import CompileIndex.Proofs.Snapshot.Representatives

/-!
# Reported changes

What the answer of a merge says about the index. A change is reported exactly when some listed file
is new or has other metadata, and without one nothing but the list of skipped entries is replaced.
-/
namespace CompileIndex

/-- Equal in every field, where paths are compared by their components. -/
structure Metadata.Equal (a b : Metadata) : Prop where
  includes : a.includes.map Path.components = b.includes.map Path.components
  frameworkDirectories :
    a.frameworkDirectories.map Path.components = b.frameworkDirectories.map Path.components
  defines : ∀ name : String, a.defines[name]? = b.defines[name]?
  compileFlags : a.compileFlags = b.compileFlags
  language : a.language = b.language

theorem Metadata.defines_toList_eq_iff {a b : Defines} :
    a.toList = b.toList ↔ ∀ name : String, a[name]? = b[name]? := by
  rw [← Std.TreeMap.equiv_iff_toList_eq]
  constructor
  · intro h name
    exact h.getElem?_eq
  · exact Std.TreeMap.Equiv.of_forall_constGet?_eq

theorem Metadata.same_iff_equal {a b : Metadata} : a.same b ↔ a.Equal b := by
  simp only [same, samePaths, Bool.and_eq_true, beq_iff_eq, defines_toList_eq_iff]
  constructor
  · rintro ⟨⟨⟨⟨hi, hf⟩, hd⟩, hc⟩, hl⟩
    exact ⟨hi, hf, hd, hc, hl⟩
  · rintro ⟨hi, hf, hd, hc, hl⟩
    exact ⟨⟨⟨⟨hi, hf⟩, hd⟩, hc⟩, hl⟩

theorem PathMap.forall_mem_toList_iff {α : Type} {t : PathMap α} {P : Path → α → Prop}
    (hP : ∀ p q v, p.components = q.components → P p v → P q v) :
    (∀ e ∈ t.toList, P e.1 e.2) ↔ ∀ p v, t[p]? = some v → P p v := by
  constructor
  · intro h p v hv
    obtain ⟨k, hc, hm⟩ :=
      Std.TreeMap.getElem?_eq_some_iff_exists_compare_eq_eq_and_mem_toList.mp hv
    exact hP k p v (Path.compare_eq_iff.mp hc).symm (h (k, v) hm)
  · intro h e he
    exact h e.1 e.2 (getElem?_of_mem_toList he)

namespace Index

variable {s incoming : Snapshot}

/-- Every listed file is stored with equal metadata. -/
def Covers (i : Index) (incoming : Snapshot) : Prop :=
  ∀ p m, incoming.file? p = some m → ∃ old, i.file? p = some old ∧ old.Equal m

/-- The file is listed with metadata that are not stored for it yet. -/
def Brings (i : Index) (incoming : Snapshot) (p : Path) (m : Metadata) : Prop :=
  incoming.file? p = some m ∧ ∀ old, i.file? p = some old → ¬ old.Equal m

theorem not_covers_iff {i : Index} :
    ¬ i.Covers incoming ↔ ∃ p m, i.Brings incoming p m := by
  simp [Covers, Brings]

theorem changed_eq_false_iff : (s.merge incoming).2 = false ↔ Covers ⟨some s⟩ incoming := by
  simp only [Snapshot.merge, Snapshot.mergeFiles_unchanged_iff, Metadata.same_iff_equal]
  refine PathMap.forall_mem_toList_iff
    (P := fun p m => ∃ old, s.files[p]? = some old ∧ old.Equal m) fun p q m hc => ?_
  rw [PathMap.getElem?_of_components_eq hc]
  exact id

theorem merge_of_unchanged (h : (s.merge incoming).2 = false) :
    (s.merge incoming).1 = { s with skipped := incoming.skipped } := by
  have hfiles : (Snapshot.mergeFiles s.files incoming.files.toList).2 = false := h
  simp [Snapshot.merge, hfiles, Snapshot.mergeFiles_unchanged hfiles]

theorem Brings.stored {p : Path} {m : Metadata} (h : Brings ⟨some s⟩ incoming p m) :
    (apply ⟨some s⟩ (.ok incoming)).2.file? p = some m := by
  rw [file?_apply_ok, h.1]
  cases hold : file? ⟨some s⟩ p with
  | none => rfl
  | some old =>
    have hne : ¬ old.same m := fun hs => h.2 old hold (Metadata.same_iff_equal.mp hs)
    simp [Snapshot.settle, hne]

/-- A merge answers that nothing has changed exactly when every listed file was stored with equal
metadata. Then it replaces the skipped entries and nothing else, and all answers stay as they were.
When it answers that something has changed, some file is stored with metadata that it did not have.
The first snapshot of an index is always a change. -/
theorem apply_reports_change (s incoming : Snapshot) :
    let i : Index := ⟨some s⟩
    let answer := (i.apply (.ok incoming)).1
    let after := (i.apply (.ok incoming)).2
    (answer = .ok false ↔ i.Covers incoming) ∧
    (answer = .ok true ↔ ∃ p m, i.Brings incoming p m ∧ after.file? p = some m) ∧
    (answer = .ok false → after = ⟨some { s with skipped := incoming.skipped }⟩ ∧
      ∀ fs item, after.lookup fs item = i.lookup fs item) ∧
    empty.apply (.ok incoming) = (.ok true, ⟨some incoming⟩) := by
  intro i answer after
  have hanswer : answer = .ok (s.merge incoming).2 := rfl
  have hafter : after = ⟨some (s.merge incoming).1⟩ := rfl
  have hfalse : answer = .ok false ↔ (s.merge incoming).2 = false := by
    rw [hanswer, Except.ok.injEq]
  refine ⟨hfalse.trans changed_eq_false_iff, ?_, ?_, rfl⟩
  · rw [hanswer, Except.ok.injEq, ← Bool.not_eq_false, changed_eq_false_iff, not_covers_iff]
    constructor
    · rintro ⟨p, m, h⟩
      exact ⟨p, m, h, h.stored⟩
    · rintro ⟨p, m, h, _⟩
      exact ⟨p, m, h⟩
  · intro h
    have hsame : after = ⟨some { s with skipped := incoming.skipped }⟩ := by
      rw [hafter, merge_of_unchanged (hfalse.mp h)]
    refine ⟨hsame, fun fs item => ?_⟩
    -- A look-up reads the files and the folders only.
    rw [hsame]
    rfl

end Index

end CompileIndex
