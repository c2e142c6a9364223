import CompileIndex.Proofs.Path.Spelling

/-!
# The folders above a path

Going up from a path takes away its last component. The folders above are therefore ordered by
their depth, and of two folders above one path one is above the other.
-/
namespace CompileIndex

/-- The components of the folders above, the nearest first, for components that start at the
end. -/
def Component.above : List Component → List (List Component)
  | [] => []
  | .root :: _ => []
  | _ :: rest => rest.reverse :: above rest

namespace Component

theorem above_cons {c : Component} (h : c ≠ .root) (rest : List Component) :
    above (c :: rest) = rest.reverse :: above rest := by
  cases c <;> simp_all [above]

theorem above_cases {cs x : List Component} (h : x ∈ above cs) :
    ∃ c rest, cs = c :: rest ∧ c ≠ .root ∧ (x = rest.reverse ∨ x ∈ above rest) := by
  cases cs with
  | nil => simp [above] at h
  | cons c rest =>
    by_cases hc : c = .root
    · subst hc
      simp [above] at h
    · rw [above_cons hc] at h
      exact ⟨c, rest, rfl, hc, List.mem_cons.mp h⟩

theorem above_length {cs x : List Component} (h : x ∈ above cs) : x.length < cs.length := by
  induction cs with
  | nil => simp [above] at h
  | cons c rest ih =>
    obtain ⟨_, _, he, _, h⟩ := above_cases h
    obtain ⟨rfl, rfl⟩ := List.cons.inj he
    rcases h with rfl | h
    · simp
    · have := ih h
      simp only [List.length_cons]
      omega

theorem above_trans {cs x y : List Component} (hx : x ∈ above cs) (hy : y ∈ above x.reverse) :
    y ∈ above cs := by
  induction cs with
  | nil => simp [above] at hx
  | cons c rest ih =>
    obtain ⟨_, _, he, hc, hx⟩ := above_cases hx
    obtain ⟨rfl, rfl⟩ := List.cons.inj he
    rw [above_cons hc]
    rcases hx with rfl | hx
    · rw [List.reverse_reverse] at hy
      exact List.mem_cons_of_mem _ hy
    · exact List.mem_cons_of_mem _ (ih hx)

theorem above_linear {cs x y : List Component} (hx : x ∈ above cs) (hy : y ∈ above cs) :
    x = y ∨ x ∈ above y.reverse ∨ y ∈ above x.reverse := by
  induction cs with
  | nil => simp [above] at hx
  | cons c rest ih =>
    obtain ⟨_, _, he, _, hx⟩ := above_cases hx
    obtain ⟨rfl, rfl⟩ := List.cons.inj he
    obtain ⟨_, _, he, _, hy⟩ := above_cases hy
    obtain ⟨rfl, rfl⟩ := List.cons.inj he
    rcases hx with rfl | hx <;> rcases hy with rfl | hy
    · exact .inl rfl
    · exact .inr (.inr (by rwa [List.reverse_reverse]))
    · exact .inr (.inl (by rwa [List.reverse_reverse]))
    · exact ih hx hy

/-- What starts a path below one of the folders above it, and ends before it, is itself one. -/
theorem mem_above_of_between {cs x y : List Component} (hx : x ∈ above cs) (hy : y.reverse <:+ cs)
    (hne : y.reverse ≠ cs) (hlt : x.length < y.length) : y ∈ above cs := by
  induction cs with
  | nil => simp [above] at hx
  | cons c rest ih =>
    obtain ⟨_, _, he, hc, hx⟩ := above_cases hx
    obtain ⟨rfl, rfl⟩ := List.cons.inj he
    have hyr : y.reverse <:+ rest := (List.suffix_cons_iff.mp hy).resolve_left hne
    rw [above_cons hc]
    rcases hx with rfl | hx
    · have hle := hyr.length_le
      simp only [List.length_reverse] at hle hlt
      omega
    · by_cases he : y.reverse = rest
      · simp [← he]
      · exact List.mem_cons_of_mem _ (ih hx hyr he)

theorem above_pairwise (cs : List Component) :
    (above cs).Pairwise fun x y => y ∈ above x.reverse := by
  induction cs with
  | nil => exact .nil
  | cons c rest ih =>
    by_cases hc : c = .root
    · subst hc
      exact .nil
    · rw [above_cons hc]
      refine .cons (fun y hy => ?_) ih
      rwa [List.reverse_reverse]

/-- Longer lists are in the order of their starts, unless one start is the start of the other. -/
theorem compare_append {cs ds : List Component} (x y : List Component)
    (h : compare cs ds = .lt) (hp : ¬ cs <+: ds) : compare (cs ++ x) (ds ++ y) = .lt := by
  induction cs generalizing ds with
  | nil => exact absurd (List.nil_prefix) hp
  | cons c cs ih =>
    cases ds with
    | nil => cases h
    | cons d ds =>
      rw [List.cons_append, List.cons_append, List.compare_cons_cons] at *
      cases hc : compare c d with
      | lt => rfl
      | gt => simp [hc] at h
      | eq =>
        obtain rfl := Std.LawfulEqOrd.eq_of_compare hc
        rw [hc] at h
        exact ih h fun hpre => hp (List.cons_prefix_cons.mpr ⟨rfl, hpre⟩)

end Component

namespace Path

theorem components_foldersAbove {ps : List Part} (h : Leading ps.reverse) :
    (foldersAbove ps).map components = Component.above (ps.filterMap (·.2)) := by
  induction ps with
  | nil => rfl
  | cons part rest ih =>
    have hr : Leading rest.reverse := by
      rw [List.reverse_cons] at h
      exact h.of_append
    obtain ⟨s, c⟩ := part
    cases c with
    | none => simpa [foldersAbove] using ih hr
    | some c =>
      by_cases hc : c = .root
      · subst hc
        rfl
      · change _ = Component.above (c :: rest.filterMap (·.2))
        rw [Component.above_cons hc, ← ih hr, ← components_spell_trimEnd hr]
        cases c with
        | root => exact absurd rfl hc
        | here => rfl
        | up => rfl
        | name octets => rfl

theorem components_above (p : Path) :
    p.above.map components = Component.above p.components.reverse := by
  rw [above, components_foldersAbove (by simpa using leading_parts p), List.filterMap_reverse]
  rfl

/-- In some spelling, `d` is one of the folders above `p`. -/
def IsAbove (d p : Path) : Prop := d.components ∈ p.above.map components

instance (d p : Path) : Decidable (IsAbove d p) :=
  inferInstanceAs (Decidable (_ ∈ _))

def depth (p : Path) : Nat := p.components.length

variable {a b d p q : Path}

theorem isAbove_iff : IsAbove d p ↔ d.components ∈ Component.above p.components.reverse := by
  rw [IsAbove, components_above]

theorem IsAbove.congr_left (hd : IsAbove d p) (h : d.components = a.components) : IsAbove a p := by
  rwa [isAbove_iff, ← h, ← isAbove_iff]

theorem IsAbove.congr_right (hd : IsAbove d p) (h : p.components = q.components) :
    IsAbove d q := by
  rwa [isAbove_iff, ← h, ← isAbove_iff]

theorem IsAbove.depth_lt (h : IsAbove d p) : d.depth < p.depth := by
  simpa [depth] using Component.above_length (isAbove_iff.mp h)

theorem IsAbove.irrefl (h : IsAbove d d) : False := Nat.lt_irrefl _ h.depth_lt

theorem IsAbove.asymm (h : IsAbove d p) (k : IsAbove p d) : False :=
  Nat.lt_asymm h.depth_lt k.depth_lt

theorem IsAbove.trans (h : IsAbove d q) (k : IsAbove q p) : IsAbove d p := by
  rw [isAbove_iff] at h k ⊢
  exact Component.above_trans k h

theorem IsAbove.linear (ha : IsAbove a p) (hb : IsAbove b p) :
    a.components = b.components ∨ IsAbove a b ∨ IsAbove b a := by
  rw [isAbove_iff] at ha hb
  simpa only [isAbove_iff] using Component.above_linear ha hb

theorem above_pairwise (p : Path) : p.above.Pairwise fun q d => IsAbove d q := by
  have h := Component.above_pairwise p.components.reverse
  rw [← components_above, List.pairwise_map] at h
  exact h.imp fun h => isAbove_iff.mpr h

theorem isAbove_of_mem (h : d ∈ p.above) : IsAbove d p := List.mem_map_of_mem h

theorem IsAbove.exists_mem (h : IsAbove d p) : ∃ q ∈ p.above, q.components = d.components :=
  List.mem_map.mp h

theorem isAbove_iff_of_parent (h : p.parent? = some q) :
    IsAbove d p ↔ d.components = q.components ∨ IsAbove d q := by
  obtain ⟨rest, hr⟩ := List.head?_eq_some_iff.mp h
  constructor
  · intro hd
    rw [IsAbove, hr] at hd
    rcases List.mem_cons.mp hd with hd | hd
    · exact .inl hd
    · obtain ⟨a, ha, he⟩ := List.mem_map.mp hd
      have hp := above_pairwise p
      rw [hr] at hp
      exact .inr (((List.pairwise_cons.mp hp).1 a ha).congr_left he)
  · have hq : IsAbove q p := isAbove_of_mem (by simp [hr])
    rintro (hd | hd)
    · exact hq.congr_left hd.symm
    · exact hd.trans hq

example : IsAbove ⟨"/src"⟩ ⟨"/src/./a//b.c"⟩ ∧ ¬ IsAbove ⟨"/src/a"⟩ ⟨"/src/ab.c"⟩ := by decide

theorem components_of_parent (h : p.parent? = some q) :
    ∃ c, p.components = q.components ++ [c] := by
  obtain ⟨rest, hr⟩ := List.head?_eq_some_iff.mp h
  have ha := components_above p
  rw [hr, List.map_cons] at ha
  cases hp : p.components.reverse with
  | nil => simp [hp, Component.above] at ha
  | cons c rest =>
    have hm : q.components ∈ Component.above (c :: rest) := by
      rw [← hp, ← ha]
      exact List.mem_cons_self
    obtain ⟨_, _, he, hc, _⟩ := Component.above_cases hm
    obtain ⟨rfl, rfl⟩ := List.cons.inj he
    rw [hp, Component.above_cons hc] at ha
    refine ⟨c, ?_⟩
    rw [(List.cons.inj ha).1, ← List.reverse_cons, ← hp, List.reverse_reverse]

/-- Of two paths under one folder, the one whose components start the other is above it. -/
theorem isAbove_of_prefix (hp : IsAbove d p) (hq : IsAbove d q)
    (h : p.components <+: q.components) (hne : p.components ≠ q.components) : IsAbove p q := by
  rw [isAbove_iff] at hq ⊢
  refine Component.mem_above_of_between hq (List.reverse_suffix.mpr h) (by simpa using hne) ?_
  exact hp.depth_lt

theorem IsAbove.exists_parent (h : IsAbove d p) : ∃ q, p.parent? = some q := by
  obtain ⟨q, hq, _⟩ := h.exists_mem
  cases hp : p.above with
  | nil => simp [hp] at hq
  | cons a rest => exact ⟨a, by simp [parent?, hp]⟩

/-- In some spelling, `d` is come to by going from `p` to its parent, once or again and again. -/
inductive Ancestor (d : Path) : Path → Prop
  | parent {p q : Path} (hq : p.parent? = some q) (hd : d.components = q.components) : Ancestor d p
  | further {p q : Path} (hq : p.parent? = some q) (hd : Ancestor d q) : Ancestor d p

theorem ancestor_iff_isAbove : Ancestor d p ↔ IsAbove d p := by
  constructor
  · intro h
    induction h with
    | parent hq hd => exact (isAbove_iff_of_parent hq).mpr (.inl hd)
    | further hq _ ih => exact (isAbove_iff_of_parent hq).mpr (.inr ih)
  · intro h
    induction hn : p.depth using Nat.strongRecOn generalizing p with
    | ind n ih =>
      obtain ⟨q, hq⟩ := h.exists_parent
      rcases (isAbove_iff_of_parent hq).mp h with hd | hd
      · exact .parent hq hd
      · have hqp : IsAbove q p := (isAbove_iff_of_parent hq).mpr (.inl rfl)
        exact .further hq (ih q.depth (hn ▸ hqp.depth_lt) hd rfl)

end Path

end CompileIndex
