import CompileIndex.Path.Clean
import CompileIndex.Proofs.Path.Spelling

/-!
# Cleaned paths

A cleaned path is spelled with its components alone, so that two cleaned paths that are the same
path have one spelling.
-/
namespace CompileIndex

open CompileIndex.Path (firstComponent? laterComponent?)

/-- Behind a slash, the component is read from its text. -/
structure Component.Later (c : Component) : Prop where
  read : laterComponent? c.segment = some c
  no_slash : slash ∉ c.segment

/-- At the start of a path, the component is read from its text. -/
structure Component.First (c : Component) : Prop where
  read : firstComponent? c.segment true = some c
  no_slash : slash ∉ c.segment

namespace Component

theorem not_later_here : ¬ Later .here := fun h => by cases h.read

theorem not_later_root : ¬ Later .root := fun h => by cases h.read

theorem Later.first {c : Component} (h : c.Later) : c.First := by
  refine ⟨?_, h.no_slash⟩
  have hempty : c.segment ≠ [] := fun hs => by
    have hr := h.read
    rw [hs] at hr
    cases hr
  have hdot : c.segment ≠ [dot] := fun hs => by
    have hr := h.read
    rw [hs] at hr
    cases hr
  rw [firstComponent?, if_neg hempty, if_neg hdot]
  exact h.read

theorem later_of_read {s : List UInt8} {c : Component} (hs : slash ∉ s)
    (h : laterComponent? s = some c) : c.Later := by
  have hseg : c.segment = s := by
    rw [laterComponent?] at h
    split at h
    · cases h
    · split at h
      · next hup =>
        cases h
        exact hup.symm
      · cases h
        rfl
  exact ⟨hseg ▸ h, hseg ▸ hs⟩

theorem first_of_read {s : List UInt8} {more : Bool} {c : Component} (hs : slash ∉ s)
    (h : firstComponent? s more = some c) : c.First := by
  rw [firstComponent?] at h
  split at h
  · split at h
    · cases h
      exact ⟨rfl, List.not_mem_nil⟩
    · cases h
  · split at h
    · cases h
      exact ⟨rfl, by decide⟩
    · exact (later_of_read hs h).first

end Component

namespace Path

variable {p q : Path} {cs ds : List Component} {c : Component}

/-- The components can be spelled out and read back. -/
def Spellable : List Component → Prop
  | [] => True
  | c :: rest => c.First ∧ ∀ d ∈ rest, d.Later

theorem spellable_of_later (h : ∀ c ∈ cs, c.Later) : Spellable cs := by
  cases cs with
  | nil => trivial
  | cons c rest =>
    exact ⟨(h c List.mem_cons_self).first, fun d hd => h d (List.mem_cons_of_mem c hd)⟩

theorem Spellable.of_append (h : Spellable (cs ++ ds)) : Spellable cs := by
  cases cs with
  | nil => trivial
  | cons c rest => exact ⟨h.1, fun d hd => h.2 d (List.mem_append_left ds hd)⟩

theorem Spellable.concat (h : Spellable cs) (hc : c.Later) : Spellable (cs ++ [c]) := by
  cases cs with
  | nil => exact ⟨hc.first, fun d hd => absurd hd List.not_mem_nil⟩
  | cons b rest =>
    refine ⟨h.1, fun d hd => ?_⟩
    rcases List.mem_append.mp hd with hd | hd
    · exact h.2 d hd
    · obtain rfl := List.mem_singleton.mp hd
      exact hc

theorem spellable_components (p : Path) : Spellable p.components := by
  have hlead := leading_parts p
  rw [components]
  generalize p.parts = parts at hlead ⊢
  cases hlead with
  | nil => trivial
  | cons s more rest hmore hs =>
    have hrest : ∀ c ∈ (rest.map fun t => (t, laterComponent? t)).filterMap (·.2), c.Later := by
      intro c hc
      obtain ⟨part, hpart, hread⟩ := List.mem_filterMap.mp hc
      obtain ⟨t, ht, rfl⟩ := List.mem_map.mp hpart
      exact Component.later_of_read (hs t (List.mem_cons_of_mem s ht)) hread
    rw [List.filterMap_cons]
    cases hfirst : firstComponent? s more with
    | none => simpa [hfirst] using spellable_of_later hrest
    | some c =>
      exact ⟨Component.first_of_read (hs s List.mem_cons_self) hfirst, hrest⟩

theorem components_ofComponents (h : Spellable cs) : (ofComponents cs).components = cs := by
  have hlead : Leading (cs.map fun c => (c.segment, some c)) := by
    cases cs with
    | nil => exact .nil
    | cons c rest =>
      have hrest : rest.map (fun d => (d.segment, some d)) =
          (rest.map Component.segment).map fun t => (t, laterComponent? t) := by
        rw [List.map_map]
        refine List.map_congr_left fun d hd => ?_
        rw [Function.comp_apply, (h.2 d hd).read]
      rw [List.map_cons, hrest, ← h.1.read]
      refine .cons c.segment true (rest.map Component.segment) (fun _ => rfl) fun t ht => ?_
      rcases List.mem_cons.mp ht with rfl | ht
      · exact h.1.no_slash
      · obtain ⟨d, hd, rfl⟩ := List.mem_map.mp ht
        exact (h.2 d hd).no_slash
  rw [ofComponents, hlead.components_spell]
  · exact List.filterMap_map.trans List.filterMap_some
  · intro part hpart
    obtain ⟨c, _, rfl⟩ := List.mem_map.mp (List.mem_of_getLast? hpart)
    rfl

/-- What cleaning keeps, with the last component first. -/
structure Kept (kept : List Component) : Prop where
  spellable : Spellable kept.reverse
  no_here : .here ∉ kept

theorem kept_nil : Kept [] := ⟨trivial, List.not_mem_nil⟩

theorem Kept.cons {kept : List Component} (h : Kept kept) (hc : c.Later) : Kept (c :: kept) := by
  refine ⟨?_, ?_⟩
  · rw [List.reverse_cons]
    exact h.spellable.concat hc
  · rintro (_ | ⟨_, hm⟩)
    · exact Component.not_later_here hc
    · exact h.no_here hm

theorem Kept.tail {kept : List Component} (h : Kept (c :: kept)) : Kept kept := by
  have hs := h.spellable
  rw [List.reverse_cons] at hs
  exact ⟨hs.of_append, fun hm => h.no_here (List.mem_cons_of_mem c hm)⟩

theorem Kept.cleanStep {kept : List Component} (h : Kept kept) (hc : c.Later) :
    Kept (cleanStep kept c) := by
  cases c with
  | root => exact absurd hc Component.not_later_root
  | here => exact absurd hc Component.not_later_here
  | name octets => exact h.cons hc
  | up =>
    match kept with
    | [] | .here :: _ | .up :: _ => exact h.cons hc
    | .root :: _ => exact h
    | .name _ :: _ => exact h.tail

theorem kept_cleanStep_first (hc : c.First) : Kept (cleanStep [] c) := by
  cases c with
  | here => exact kept_nil
  | root | up | name =>
    exact ⟨⟨hc, fun d hd => absurd hd List.not_mem_nil⟩, by simp [Path.cleanStep]⟩

theorem kept_foldl_cleanStep {kept : List Component} (h : Kept kept) (hcs : ∀ c ∈ cs, c.Later) :
    Kept (cs.foldl Path.cleanStep kept) := by
  induction cs generalizing kept with
  | nil => exact h
  | cons c rest ih =>
    exact ih (h.cleanStep (hcs c List.mem_cons_self)) fun d hd => hcs d (List.mem_cons_of_mem c hd)

theorem kept_components (p : Path) : Kept (p.components.foldl Path.cleanStep []) := by
  have h := spellable_components p
  cases hp : p.components with
  | nil => exact kept_nil
  | cons c rest =>
    rw [hp] at h
    rw [List.foldl_cons]
    exact kept_foldl_cleanStep (kept_cleanStep_first h.1) h.2

theorem components_clean (p : Path) :
    p.clean.components =
      if cleanComponents p.components = [] then [.here] else cleanComponents p.components := by
  rw [clean]
  split
  · next h =>
    rw [if_pos h]
    decide
  · next h =>
    rw [if_neg h]
    exact components_ofComponents (kept_components p).spellable

theorem clean_eq_ofComponents (p : Path) : p.clean = ofComponents p.clean.components := by
  rw [components_clean, clean]
  split
  · next h =>
    rw [if_pos h]
    rfl
  · next h => rw [if_neg h]

/-- Cleaned paths have one spelling. -/
theorem clean_eq_of_same (h : p.clean.same q.clean) : p.clean = q.clean := by
  rw [clean_eq_ofComponents p, clean_eq_ofComponents q]
  exact congrArg ofComponents (by simpa [same] using h)

/-- Cleaning what is kept gives it again. -/
def Stable (kept : List Component) : Prop := kept.reverse.foldl cleanStep [] = kept

theorem Stable.cons {kept : List Component} (h : Stable kept) (hc : cleanStep kept c = c :: kept) :
    Stable (c :: kept) := by
  rw [Stable, List.reverse_cons, List.foldl_append, h, List.foldl_cons, List.foldl_nil, hc]

theorem Stable.tail {kept : List Component} {octets : List UInt8}
    (h : Stable (.name octets :: kept)) : Stable kept := by
  rw [Stable, List.reverse_cons, List.foldl_append, List.foldl_cons, List.foldl_nil] at h
  exact (List.cons.inj h).2

theorem Stable.cleanStep {kept : List Component} (h : Stable kept) (c : Component) :
    Stable (cleanStep kept c) := by
  cases c with
  | root | name octets => exact h.cons rfl
  | here => exact h
  | up =>
    match kept with
    | [] | .here :: _ | .up :: _ => exact h.cons rfl
    | .root :: _ => exact h
    | .name _ :: _ => exact h.tail

theorem cleanComponents_cleanComponents (cs : List Component) :
    cleanComponents (cleanComponents cs) = cleanComponents cs := by
  have hstable : Stable (cs.foldl Path.cleanStep []) :=
    List.foldlRecOn cs _ (show Stable [] from rfl) fun _ h c _ => h.cleanStep c
  rw [cleanComponents, cleanComponents, hstable]

theorem clean_clean (p : Path) : p.clean.clean = p.clean := by
  refine clean_eq_of_same ?_
  rw [same, beq_iff_eq, components_clean p.clean, components_clean p]
  by_cases hnone : cleanComponents p.components = []
  · rw [if_pos hnone]
    rfl
  · rw [if_neg hnone, cleanComponents_cleanComponents, if_neg hnone]

theorem same_refl (p : Path) : p.same p := by
  simp [same]

theorem same_congr {a b : Path} (h : a.same b) (q : Path) : q.same a = q.same b := by
  have hab : a.components = b.components := by simpa [same] using h
  rw [same, same, hab]

end Path

end CompileIndex
