import CompileIndex.Index
import CompileIndex.Proofs.Snapshot.Merge
import Mathlib.Data.List.Induction

/-!
# Indexes and the imports behind them

After any sequence of imports an index holds, for each path, what the last snapshot that lists the
path says of it. Nothing that was listed is lost and a failed import leaves no trace.
-/
namespace CompileIndex.Index

/-- The index after these results of imports, when it was empty before them. -/
def afterAll (results : List (Except Failure Snapshot)) : Index :=
  results.foldl (fun i result => (i.apply result).2) .empty

/-- The snapshots of the imports that did not fail. -/
def validOf (results : List (Except Failure Snapshot)) : List Snapshot :=
  results.filterMap Except.toOption

def file? (i : Index) (p : Path) : Option Metadata := i.snapshot.bind (·.file? p)

def skipped? (i : Index) : Option (List SkippedEntry) := i.snapshot.map (·.skipped)

/-- The metadata of a path in the last of the snapshots that lists it. -/
def lastListed (snapshots : List Snapshot) (p : Path) : Option Metadata :=
  snapshots.reverse.findSome? (·.file? p)

theorem afterAll_append (results : List (Except Failure Snapshot))
    (result : Except Failure Snapshot) :
    afterAll (results ++ [result]) = ((afterAll results).apply result).2 := by
  simp [afterAll]

theorem validOf_append_ok (results : List (Except Failure Snapshot)) (s : Snapshot) :
    validOf (results ++ [.ok s]) = validOf results ++ [s] := by
  simp [validOf, Except.toOption]

theorem validOf_append_error (results : List (Except Failure Snapshot)) (failure : Failure) :
    validOf (results ++ [.error failure]) = validOf results := by
  simp [validOf, Except.toOption]

theorem lastListed_append (snapshots : List Snapshot) (s : Snapshot) (p : Path) :
    lastListed (snapshots ++ [s]) p = (s.file? p).or (lastListed snapshots p) := by
  simp only [lastListed, List.reverse_append, List.reverse_singleton, List.singleton_append,
    List.findSome?_cons]
  cases s.file? p <;> rfl

theorem lastListed_eq_none_iff {snapshots : List Snapshot} {p : Path} :
    lastListed snapshots p = none ↔ ∀ s ∈ snapshots, s.file? p = none := by
  simp [lastListed]

theorem snapshot_apply_ok (i : Index) (s : Snapshot) :
    ∃ known, (i.apply (.ok s)).2.snapshot = some known ∧ known.skipped = s.skipped := by
  cases hs : i.snapshot with
  | none => exact ⟨s, by simp [apply, hs], rfl⟩
  | some known => exact ⟨(known.merge s).1, by simp only [apply, hs], rfl⟩

theorem file?_apply_ok (i : Index) (s : Snapshot) (p : Path) :
    (i.apply (.ok s)).2.file? p =
      match s.file? p with
      | some m => some (Snapshot.settle (i.file? p) m)
      | none => i.file? p := by
  cases hs : i.snapshot with
  | none =>
    simp only [apply, hs, file?, Option.bind_some, Option.bind_none]
    cases s.file? p <;> rfl
  | some known =>
    simp only [apply, hs, file?, Snapshot.merge, Snapshot.file?, Option.bind_some]
    exact Snapshot.getElem?_mergeFiles_toList known.files s.files p

/-- Both are absent, or both are there and say the same. -/
def Agree (a b : Option Metadata) : Prop := Option.Rel (fun a b => a.same b) a b

theorem isSome_snapshot_afterAll (results : List (Except Failure Snapshot)) :
    (afterAll results).snapshot.isSome ↔ ∃ s, .ok s ∈ results := by
  induction results using List.reverseRecOn with
  | nil => simp [afterAll, empty]
  | append_singleton results result ih =>
    rw [afterAll_append]
    cases result with
    | error failure => simpa [apply] using ih
    | ok s =>
      obtain ⟨known, hk, _⟩ := snapshot_apply_ok (afterAll results) s
      simp [hk]

theorem skipped?_afterAll (results : List (Except Failure Snapshot)) :
    (afterAll results).skipped? = (validOf results).getLast?.map (·.skipped) := by
  induction results using List.reverseRecOn with
  | nil => rfl
  | append_singleton results result ih =>
    rw [afterAll_append]
    cases result with
    | error failure => rw [validOf_append_error]; exact ih
    | ok s =>
      obtain ⟨known, hk, he⟩ := snapshot_apply_ok (afterAll results) s
      simp [validOf_append_ok, skipped?, hk, he]

theorem agree_afterAll (results : List (Except Failure Snapshot)) (p : Path) :
    Agree ((afterAll results).file? p) (lastListed (validOf results) p) := by
  induction results using List.reverseRecOn with
  | nil => exact .none
  | append_singleton results result ih =>
    rw [afterAll_append]
    cases result with
    | error failure => rw [validOf_append_error]; exact ih
    | ok s =>
      rw [validOf_append_ok, lastListed_append, file?_apply_ok]
      cases s.file? p with
      | none => exact ih
      | some m => exact .some (Snapshot.settle_same _ m)

theorem Agree.eq_none_iff {a b : Option Metadata} (h : Agree a b) : a = none ↔ b = none := by
  cases h <;> simp

/-- An index has a snapshot as soon as one import has not failed. Of each path it knows what the
last snapshot that lists the path says, and it knows no other paths. The skipped entries are those
of the last snapshot. A failed import is reported and changes nothing. -/
theorem holds_last_listed (results : List (Except Failure Snapshot)) :
    let i := afterAll results
    (i.snapshot.isSome ↔ ∃ s, .ok s ∈ results) ∧
    (∀ p, Agree (i.file? p) (lastListed (validOf results) p)) ∧
    (∀ p, i.file? p = none ↔ ∀ s ∈ validOf results, s.file? p = none) ∧
    i.skipped? = (validOf results).getLast?.map (·.skipped) ∧
    ∀ failure, i.apply (.error failure) = (.error failure, i) := by
  intro i
  refine ⟨isSome_snapshot_afterAll results, agree_afterAll results, fun p => ?_,
    skipped?_afterAll results, fun failure => rfl⟩
  rw [(agree_afterAll results p).eq_none_iff, lastListed_eq_none_iff]

end CompileIndex.Index
