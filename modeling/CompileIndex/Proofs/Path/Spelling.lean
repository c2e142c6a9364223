import CompileIndex.Path.Basic

/-!
# Spelling paths

The parts at the start of a path spell a path again, with the components that they stand for.
-/
namespace CompileIndex

namespace Path

theorem notMem_of_mem_splitOn {α : Type} [BEq α] [LawfulBEq α] {c : α} {s t : List α}
    (h : t ∈ s.splitOn c) : c ∉ t := by
  induction s generalizing t with
  | nil =>
    obtain rfl := List.mem_singleton.mp h
    exact List.not_mem_nil
  | cons x rest ih =>
    rw [List.splitOn_cons_eq_if_modifyHead] at h
    split at h
    · rcases List.mem_cons.mp h with rfl | h
      · exact List.not_mem_nil
      · exact ih h
    · next hx =>
      obtain ⟨a, l, ha⟩ := List.exists_cons_of_ne_nil (List.splitOn_ne_nil c rest)
      rw [ha] at h ih
      rcases List.mem_cons.mp h with rfl | h
      · have hc : c ≠ x := fun hc => hx (by simp [hc])
        simpa [hc] using ih (List.mem_cons_self)
      · exact ih (List.mem_cons_of_mem _ h)

/-- Parts as they stand at the start of a path: only the first can be the root, and only when
more follows. -/
inductive Leading : List Part → Prop
  | nil : Leading []
  | cons (s : List UInt8) (more : Bool) (rest : List (List UInt8))
      (hmore : rest ≠ [] → more = true) (hs : ∀ t ∈ s :: rest, slash ∉ t) :
      Leading ((s, firstComponent? s more) :: rest.map fun t => (t, laterComponent? t))

theorem leading_parts (p : Path) : Leading p.parts := by
  simp only [parts]
  split
  · exact .nil
  · next first rest h =>
    refine .cons first _ rest (fun hr => ?_) (fun t ht => ?_)
    · simpa using hr
    · rw [← h] at ht
      exact notMem_of_mem_splitOn ht

theorem Leading.of_append {l r : List Part} (h : Leading (l ++ r)) : Leading l := by
  cases l with
  | nil => exact .nil
  | cons part l =>
    generalize he : part :: l ++ r = parts at h
    cases h with
    | nil => cases he
    | cons s more rest hmore hs =>
      obtain ⟨rfl, hl⟩ := List.cons.inj he
      obtain ⟨u, v, rfl, rfl, rfl⟩ := List.map_eq_append_iff.mp hl.symm
      refine .cons s more u (fun hu => hmore (by simp [hu])) (fun t ht => hs t ?_)
      rcases List.mem_cons.mp ht with rfl | ht
      · exact List.mem_cons_self
      · exact List.mem_cons_of_mem _ (List.mem_append_left _ ht)

theorem parts_spell {s : List UInt8} {more : Bool} {rest : List (List UInt8)}
    (hs : ∀ t ∈ s :: rest, slash ∉ t)
    (hr : rest ≠ [] ∨ firstComponent? s more ≠ some .root) :
    (spell ((s, firstComponent? s more) :: rest.map fun t => (t, laterComponent? t))).parts =
      (s, firstComponent? s !rest.isEmpty) :: rest.map fun t => (t, laterComponent? t) := by
  have htext : spell ((s, firstComponent? s more) :: rest.map fun t => (t, laterComponent? t)) =
      ⟨[slash].intercalate (s :: rest)⟩ := by
    rw [spell]
    · simp [Function.comp_def]
    · intro t h
      rcases hr with hr | hr <;> simp_all
  have hsplit : ([slash].intercalate (s :: rest)).splitOn slash = s :: rest :=
    List.splitOn_intercalate slash hs (by simp)
  rw [htext, parts, hsplit]

theorem components_root : (⟨"/"⟩ : Path).components = [.root] := by decide

/-- The parts at the start of a path, when the last of them stands for something, are again those
of a path. -/
theorem Leading.components_spell {ps : List Part} (h : Leading ps)
    (hlast : ∀ part ∈ ps.getLast?, part.2.isSome) :
    (spell ps).components = ps.filterMap (·.2) := by
  cases h with
  | nil => rfl
  | cons s more rest hmore hs =>
    by_cases hr : rest = []
    · subst hr
      by_cases hroot : firstComponent? s more = some .root
      · rw [hroot]
        exact components_root
      · rw [components, parts_spell hs (.inr hroot)]
        by_cases he : s = []
        · cases more <;> simp [he, firstComponent?] at hroot hlast
        · simp [firstComponent?, he]
    · have hi : (!rest.isEmpty) = true := by simpa using hr
      rw [components, parts_spell hs (.inl hr), hmore hr, hi]

theorem filterMap_trimEnd (ps : List Part) : (trimEnd ps).filterMap (·.2) = ps.filterMap (·.2) := by
  induction ps with
  | nil => rfl
  | cons part rest ih =>
    obtain ⟨s, c⟩ := part
    cases c with
    | none => simpa [trimEnd] using ih
    | some c => simp [trimEnd]

theorem getLast?_trimEnd {ps : List Part} :
    ∀ part ∈ (trimEnd ps).reverse.getLast?, part.2.isSome := by
  intro part hp
  rw [List.getLast?_reverse] at hp
  induction ps with
  | nil => simp [trimEnd] at hp
  | cons first rest ih =>
    obtain ⟨s, c⟩ := first
    cases c with
    | none => exact ih (by simpa [trimEnd] using hp)
    | some c =>
      obtain rfl : (s, some c) = part := by simpa [trimEnd] using hp
      rfl

theorem components_spell_trimEnd {ps : List Part} (h : Leading ps.reverse) :
    (spell (trimEnd ps).reverse).components = (ps.filterMap (·.2)).reverse := by
  have hl : Leading (trimEnd ps).reverse := by
    have ht : ps = ps.takeWhile (·.2.isNone) ++ trimEnd ps := List.takeWhile_append_dropWhile.symm
    rw [ht, List.reverse_append] at h
    exact h.of_append
  rw [hl.components_spell getLast?_trimEnd, List.filterMap_reverse, filterMap_trimEnd]

variable {base p q : Path}

/-- What stands in front of a relative path that is written behind `base`. -/
def opening (base : Path) : List UInt8 :=
  if base.octets = [] ∨ base.octets.getLast? = some slash then base.octets
  else base.octets ++ [slash]

theorem join_of_relative (base : Path) (hp : p.isAbsolute = false) :
    base.join p = ⟨base.opening ++ p.octets⟩ := by
  simp only [join, opening, hp, Bool.false_eq_true, if_false]
  split
  · rfl
  · rw [List.append_assoc, List.singleton_append]

theorem opening_of_last (h : ∃ b, p.octets.getLast? = some b ∧ b ≠ slash) :
    p.opening = p.octets ++ [slash] := by
  obtain ⟨b, hb, hslash⟩ := h
  have hne : p.octets ≠ [] := fun hnil => by simp [hnil] at hb
  rw [opening, if_neg]
  rintro (hnil | hlast)
  · exact hne hnil
  · exact hslash (Option.some.inj (hb.symm.trans hlast))

/-- Relative paths are joined one after another or all at once. -/
theorem join_join (base : Path) (hp : p.isAbsolute = false) (hq : q.isAbsolute = false)
    (hlast : ∃ b, p.octets.getLast? = some b ∧ b ≠ slash) :
    (base.join p).join q = base.join ⟨p.octets ++ slash :: q.octets⟩ := by
  obtain ⟨b, hb, hslash⟩ := hlast
  have hne : p.octets ≠ [] := fun hnil => by simp [hnil] at hb
  have hopening : (⟨base.opening ++ p.octets⟩ : Path).opening =
      base.opening ++ p.octets ++ [slash] := by
    refine opening_of_last ⟨b, ?_, hslash⟩
    simp [List.getLast?_append, hb]
  have hrelative : isAbsolute ⟨p.octets ++ slash :: q.octets⟩ = false := by
    obtain ⟨first, rest, hfirst⟩ := List.exists_cons_of_ne_nil hne
    simpa [isAbsolute, hfirst] using hp
  rw [join_of_relative base hp, join_of_relative _ hq, join_of_relative base hrelative, hopening]
  simp only [List.append_assoc, List.singleton_append]

end Path

end CompileIndex
