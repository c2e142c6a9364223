import CompileIndex.Proofs.Path.Above
import CompileIndex.Proofs.Path.Clean

/-!
# Absolute paths

An absolute path starts with the root, which is above every other one. What is joined to it or taken
off it and joined again stays where it was, and cleaning leaves no dots in it.
-/
namespace CompileIndex

theorem Component.root_mem_above {cs : List Component} (hne : cs ≠ []) (h : ∀ c ∈ cs, c ≠ .root) :
    [.root] ∈ above (cs ++ [.root]) := by
  induction cs with
  | nil => exact absurd rfl hne
  | cons c rest ih =>
    rw [List.cons_append, above_cons (h c List.mem_cons_self)]
    by_cases hrest : rest = []
    · subst hrest
      exact List.mem_cons_self
    · exact List.mem_cons_of_mem _ (ih hrest fun d hd => h d (List.mem_cons_of_mem c hd))

namespace Path

variable {base p q r : Path} {s t : List UInt8} {c : Component}

def segments (p : Path) : List (List UInt8) := p.octets.splitOn slash

/-- The components that octets have behind a slash. -/
def componentsBehind (s : List UInt8) : List Component :=
  (s.splitOn slash).filterMap laterComponent?

theorem filterMap_later (texts : List (List UInt8)) :
    (texts.map fun t => (t, laterComponent? t)).filterMap (·.2) =
      texts.filterMap laterComponent? :=
  List.filterMap_map

theorem later_of_mem_componentsBehind (h : c ∈ componentsBehind s) : c.Later := by
  obtain ⟨t, ht, hread⟩ := List.mem_filterMap.mp h
  exact Component.later_of_read (notMem_of_mem_splitOn ht) hread

theorem componentsBehind_append (s t : List UInt8) :
    componentsBehind (s ++ slash :: t) = componentsBehind s ++ componentsBehind t := by
  rw [componentsBehind, List.splitOn_append_cons_self, List.filterMap_append]
  rfl

theorem isAbsolute_iff_octets : p.isAbsolute ↔ ∃ t, p.octets = slash :: t := by
  rw [isAbsolute, beq_iff_eq, List.head?_eq_some_iff]

theorem components_of_segments {more : List (List UInt8)} (h : p.segments = s :: more) :
    p.components = (firstComponent? s !more.isEmpty).toList ++ more.filterMap laterComponent? := by
  rw [components, parts, ← segments, h]
  dsimp only
  rw [List.filterMap_cons, filterMap_later]
  cases firstComponent? s !more.isEmpty <;> rfl

theorem components_of_octets (h : p.octets = slash :: t) :
    p.components = .root :: componentsBehind t := by
  have hsegments : p.segments = [] :: t.splitOn slash := by
    rw [segments, h]
    exact List.splitOn_append_cons_self [] t
  have hmore : (!(t.splitOn slash).isEmpty) = true := by
    simp [List.splitOn_ne_nil]
  rw [components_of_segments hsegments, hmore]
  rfl

/-- Behind the root no component is the root again. -/
theorem components_of_isAbsolute (h : p.isAbsolute) :
    ∃ cs, p.components = .root :: cs ∧ ∀ c ∈ cs, c.Later := by
  obtain ⟨t, ht⟩ := isAbsolute_iff_octets.mp h
  exact ⟨_, components_of_octets ht, fun c hc => later_of_mem_componentsBehind hc⟩

theorem isAbove_root (h : p.isAbsolute) (hne : ¬ p.same ⟨"/"⟩) : IsAbove ⟨"/"⟩ p := by
  obtain ⟨cs, hcs, hlater⟩ := components_of_isAbsolute h
  have hcs' : cs ≠ [] := by
    rintro rfl
    exact hne (by simp [same, hcs, components_root])
  rw [isAbove_iff, components_root, hcs, List.reverse_cons]
  refine Component.root_mem_above (by simpa using hcs') fun c hc => ?_
  rintro rfl
  exact Component.not_later_root (hlater .root (List.mem_reverse.mp hc))

theorem exists_root_above (h : p.isAbsolute) (hne : ¬ p.same ⟨"/"⟩) :
    ∃ r ∈ p.above, r.components = [.root] :=
  (isAbove_root h hne).exists_mem

theorem exists_root_from (h : p.isAbsolute) : ∃ r ∈ p :: p.above, r.components = [.root] := by
  by_cases hroot : p.same ⟨"/"⟩
  · exact ⟨p, List.mem_cons_self, by simpa [same, components_root] using hroot⟩
  · obtain ⟨r, hr, hcomponents⟩ := exists_root_above h hroot
    exact ⟨r, List.mem_cons_of_mem p hr, hcomponents⟩

/-- The folders on the way up from a path, which is one of them, in front of the root. -/
def ascent (p : Path) : List Path := (p :: p.above).filter fun d => !d.same ⟨"/"⟩

theorem ascent_pairwise (p : Path) : (p :: p.above).Pairwise fun q d => IsAbove d q :=
  List.pairwise_cons.mpr ⟨fun _ hd => isAbove_of_mem hd, above_pairwise p⟩

theorem above_of_root (h : r.components = [.root]) : r.above = [] := by
  have hcomponents := components_above r
  rw [h] at hcomponents
  exact List.map_eq_nil_iff.mp hcomponents

/-- The way up from an absolute path ends with the root. -/
theorem exists_ascent (h : p.isAbsolute) :
    ∃ r, r.components = [.root] ∧ p :: p.above = p.ascent ++ [r] := by
  obtain ⟨r, hr, hroot⟩ := exists_root_from h
  obtain ⟨before, after, hsplit⟩ := List.append_of_mem hr
  have hpairwise := ascent_pairwise p
  rw [hsplit] at hpairwise
  obtain ⟨-, hbehind, hfront⟩ := List.pairwise_append.mp hpairwise
  have hsame : ∀ d : Path, d.same ⟨"/"⟩ ↔ d.components = r.components := by
    simp [same, components_root, hroot]
  have hafter : after = [] := by
    refine List.eq_nil_iff_forall_not_mem.mpr fun d hd => ?_
    have hdr : IsAbove d r := (List.pairwise_cons.mp hbehind).1 d hd
    rw [IsAbove, above_of_root hroot] at hdr
    exact List.not_mem_nil hdr
  subst hafter
  have hbefore : ∀ d ∈ before, ¬ d.same ⟨"/"⟩ := by
    intro d hd hdroot
    have hrd : IsAbove r d := hfront d hd r List.mem_cons_self
    exact (hrd.congr_right ((hsame d).mp hdroot)).irrefl
  refine ⟨r, hroot, ?_⟩
  have hr : r.same ⟨"/"⟩ := (hsame r).mpr rfl
  have hfilter : before.filter (fun d => !d.same ⟨"/"⟩) = before :=
    List.filter_eq_self.mpr fun d hd => by simpa using hbefore d hd
  rw [ascent, hsplit, List.filter_append, hfilter]
  simp [hr]

theorem isAbsolute_of_segments {more : List (List UInt8)} (h : p.segments = [] :: s :: more) :
    p.isAbsolute := by
  refine isAbsolute_iff_octets.mpr ⟨[slash].intercalate (s :: more), ?_⟩
  have htext : [slash].intercalate p.segments = p.octets := List.intercalate_splitOn slash
  rw [← htext, h, List.intercalate_cons_cons]
  rfl

theorem firstComponent?_of_later (h : laterComponent? s = some c) (more : Bool) :
    firstComponent? s more = some c := by
  have hnone : ¬ (s = [] ∨ s = [dot]) := fun hs => by
    rw [laterComponent?, if_pos hs] at h
    cases h
  rw [firstComponent?, if_neg fun hs => hnone (.inl hs), if_neg fun hs => hnone (.inr hs), h]

theorem laterComponent?_ne_here (s : List UInt8) : laterComponent? s ≠ some .here := by
  rw [laterComponent?]
  split
  · simp
  · split <;> simp

theorem componentsBehind_of_relative (hr : r.isAbsolute = false) :
    componentsBehind r.octets = r.components.filter (· ≠ .here) := by
  obtain ⟨s, more, hsegments⟩ : ∃ s more, r.segments = s :: more :=
    List.exists_cons_of_ne_nil (List.splitOn_ne_nil slash r.octets)
  have hstart : s = [] → more = [] := by
    rintro rfl
    cases more with
    | nil => rfl
    | cons t more => exact absurd (isAbsolute_of_segments hsegments) (by simp [hr])
  have hfirst : (firstComponent? s !more.isEmpty).toList.filter (· ≠ .here) =
      (laterComponent? s).toList := by
    by_cases hempty : s = []
    · simp [hempty, hstart hempty, firstComponent?, laterComponent?]
    by_cases hdot : s = [dot]
    · simp [hdot, firstComponent?, laterComponent?]
    rw [firstComponent?, if_neg hempty, if_neg hdot, List.filter_eq_self]
    intro c hc
    exact decide_eq_true fun hhere => laterComponent?_ne_here s (hhere ▸ Option.mem_toList.mp hc)
  have hmore : (more.filterMap laterComponent?).filter (· ≠ .here) =
      more.filterMap laterComponent? := by
    rw [List.filter_eq_self]
    intro c hc
    obtain ⟨t, -, hread⟩ := List.mem_filterMap.mp hc
    exact decide_eq_true fun hhere => laterComponent?_ne_here t (hhere ▸ hread)
  rw [components_of_segments hsegments, List.filter_append, hfirst, hmore, componentsBehind,
    ← segments, hsegments]
  cases hs : laterComponent? s <;> simp [hs]

theorem isAbsolute_of_root_mem (h : .root ∈ p.components) : p.isAbsolute := by
  cases hp : p.isAbsolute with
  | true => rfl
  | false =>
    have hbehind : .root ∈ componentsBehind p.octets := by
      rw [componentsBehind_of_relative hp]
      exact List.mem_filter.mpr ⟨h, by decide⟩
    exact absurd (later_of_mem_componentsBehind hbehind) Component.not_later_root

theorem isAbsolute_parent (hp : p.isAbsolute) (h : p.parent? = some q) : q.isAbsolute := by
  obtain ⟨cs, hcs, -⟩ := components_of_isAbsolute hp
  obtain ⟨c, hc⟩ := components_of_parent h
  rw [hc] at hcs
  cases hq : q.components with
  | nil =>
    -- The root itself has no parent.
    rw [hq] at hc hcs
    obtain ⟨rfl, -⟩ := List.cons.inj hcs
    rw [parent?, above_of_root hc] at h
    cases h
  | cons d ds =>
    rw [hq] at hcs
    obtain ⟨rfl, -⟩ := List.cons.inj hcs
    exact isAbsolute_of_root_mem (hq ▸ List.mem_cons_self)

/-- What is joined is written behind the base; only a dot at its start is lost. -/
theorem components_join (hb : base.isAbsolute) (hr : r.isAbsolute = false) :
    (base.join r).components = base.components ++ r.components.filter (· ≠ .here) := by
  obtain ⟨t, ht⟩ := isAbsolute_iff_octets.mp hb
  rw [join_of_relative base hr, ← componentsBehind_of_relative hr, components_of_octets ht]
  by_cases hlast : base.octets.getLast? = some slash
  · have hopening : base.opening = base.octets := if_pos (.inr hlast)
    rcases List.eq_nil_or_concat t with rfl | ⟨u, c, rfl⟩
    · have htext : base.opening ++ r.octets = slash :: r.octets := by
        simp [hopening, ht]
      rw [components_of_octets htext]
      rfl
    · rw [ht, List.concat_eq_append, ← List.cons_append, List.getLast?_concat] at hlast
      obtain rfl := Option.some.inj hlast
      have htext : base.opening ++ r.octets = slash :: (u ++ slash :: r.octets) := by
        simp [hopening, ht]
      rw [components_of_octets htext, componentsBehind_append, List.concat_eq_append,
        componentsBehind_append]
      simp [componentsBehind, laterComponent?]
  · have hopening : base.opening = base.octets ++ [slash] := by
      rw [opening, if_neg]
      rintro (hnil | h)
      · simp [hnil] at ht
      · exact hlast h
    have htext : base.opening ++ r.octets = slash :: (t ++ slash :: r.octets) := by
      simp [hopening, ht]
    rw [components_of_octets htext, componentsBehind_append]
    rfl

theorem isAbsolute_join (hb : base.isAbsolute) (p : Path) : (base.join p).isAbsolute := by
  obtain ⟨t, ht⟩ := isAbsolute_iff_octets.mp hb
  cases hp : p.isAbsolute with
  | true => rwa [join, if_pos hp]
  | false =>
    rw [join_of_relative base hp, isAbsolute_iff_octets, opening]
    split <;> simp [ht]

/-- Without those in front that stand for nothing, parts behind a slash start a relative path. -/
theorem leading_dropWhile {texts : List (List UInt8)} (h : ∀ t ∈ texts, slash ∉ t) :
    Leading ((texts.map fun t => (t, laterComponent? t)).dropWhile (·.2.isNone)) := by
  induction texts with
  | nil => exact .nil
  | cons t more ih =>
    cases ht : laterComponent? t with
    | none => simpa [ht] using ih fun u hu => h u (List.mem_cons_of_mem t hu)
    | some c =>
      have hlead := Leading.cons t true more (fun _ => rfl) h
      rw [firstComponent?_of_later ht] at hlead
      simpa [ht] using hlead

theorem dropComponents_eq_some {cs : List Component} {parts rest : List Part}
    (h : dropComponents cs parts = some rest) :
    ∃ taken, parts = taken ++ rest ∧ taken.filterMap (·.2) = cs := by
  induction parts generalizing cs with
  | nil =>
    cases cs with
    | nil =>
      cases h
      exact ⟨[], rfl, rfl⟩
    | cons c cs => cases h
  | cons part parts ih =>
    cases cs with
    | nil =>
      cases h
      exact ⟨[], rfl, rfl⟩
    | cons c cs =>
      obtain ⟨s, d⟩ := part
      cases d with
      | none =>
        obtain ⟨taken, rfl, htaken⟩ := ih h
        exact ⟨(s, none) :: taken, rfl, htaken⟩
      | some d =>
        rw [dropComponents] at h
        split at h
        · next hcd =>
          subst hcd
          obtain ⟨taken, rfl, rfl⟩ := ih h
          exact ⟨(s, some c) :: taken, rfl, rfl⟩
        · cases h

/-- Parts behind the first one of a path stand for what they are read as behind a slash. -/
theorem Leading.exists_later {part : Part} {taken rest : List Part}
    (h : Leading (part :: taken ++ rest)) :
    ∃ texts : List (List UInt8),
      rest = texts.map (fun t => (t, laterComponent? t)) ∧ ∀ t ∈ texts, slash ∉ t := by
  generalize hparts : part :: taken ++ rest = parts at h
  cases h with
  | nil => cases hparts
  | cons s more texts hmore hs =>
    obtain ⟨-, htexts⟩ := List.cons.inj hparts
    obtain ⟨before, behind, rfl, -, rfl⟩ := List.map_eq_append_iff.mp htexts.symm
    exact ⟨behind, rfl, fun t ht => hs t (List.mem_cons_of_mem s (List.mem_append_right _ ht))⟩

/-- What is below a base are the components behind those of the base. -/
theorem components_below {cs : List Component} (hb : base.components = .root :: cs)
    (h : p.below? base = some r) :
    p.components = base.components ++ r.components ∧ ∀ c ∈ r.components, c.Later := by
  obtain ⟨rest, hdrop, hr⟩ := Option.map_eq_some_iff.mp h
  obtain ⟨taken, hparts, htaken⟩ := dropComponents_eq_some hdrop
  -- The first part stands for the root, so that those behind the base are read as later ones.
  obtain ⟨texts, rfl, hslash⟩ : ∃ texts : List (List UInt8),
      rest = texts.map (fun t => (t, laterComponent? t)) ∧ ∀ t ∈ texts, slash ∉ t := by
    have hlead := leading_parts p
    rw [hparts] at hlead
    cases taken with
    | nil => simp [hb] at htaken
    | cons part taken => exact hlead.exists_later
  have hnone : base.components ≠ [] := by simp [hb]
  rw [if_neg hnone] at hr
  have hcomponents : r.components = texts.filterMap laterComponent? := by
    rw [← hr, components_spell_trimEnd (by simpa using leading_dropWhile hslash),
      List.filterMap_reverse, List.reverse_reverse]
    exact (filterMap_trimEnd _).trans List.filterMap_map
  refine ⟨?_, fun c hc => ?_⟩
  · rw [components, hparts, List.filterMap_append, htaken, hcomponents, List.filterMap_map]
    rfl
  · obtain ⟨t, ht, hread⟩ := List.mem_filterMap.mp (hcomponents ▸ hc)
    exact Component.later_of_read (hslash t ht) hread

/-- What is below an absolute base, joined to it again, is the same path. -/
theorem join_below (hb : base.isAbsolute) (h : p.below? base = some r) :
    r.isAbsolute = false ∧ (base.join r).same p := by
  obtain ⟨cs, hcs, -⟩ := components_of_isAbsolute hb
  obtain ⟨hp, hlater⟩ := components_below hcs h
  have hr : r.isAbsolute = false := by
    rw [← Bool.not_eq_true]
    intro hr
    obtain ⟨ds, hds, -⟩ := components_of_isAbsolute hr
    exact Component.not_later_root (hlater .root (hds ▸ List.mem_cons_self))
  refine ⟨hr, ?_⟩
  have hhere : r.components.filter (· ≠ .here) = r.components := by
    rw [List.filter_eq_self]
    intro c hc
    exact decide_eq_true fun hhere => Component.not_later_here (hhere ▸ hlater c hc)
  rw [same, beq_iff_eq, components_join hb hr, hhere, hp]

/-- An absolute path in whose text no dots stand between slashes. -/
structure Normal (p : Path) : Prop where
  isAbsolute : p.isAbsolute
  no_dot : [dot] ∉ p.segments
  no_dots : [dot, dot] ∉ p.segments

theorem segments_ofComponents {cs : List Component} (hcs : cs ≠ [])
    (h : Spellable (.root :: cs)) :
    (ofComponents (.root :: cs)).segments = [] :: cs.map Component.segment := by
  have htext : (ofComponents (.root :: cs)).octets =
      [slash].intercalate ([] :: cs.map Component.segment) := by
    obtain ⟨c, rest, rfl⟩ := List.exists_cons_of_ne_nil hcs
    have hroot : Component.root.segment = [] := rfl
    simp [ofComponents, spell, hroot, Function.comp_def]
  have hslash : ∀ s ∈ [] :: cs.map Component.segment, slash ∉ s := by
    intro s hs
    rcases List.mem_cons.mp hs with rfl | hs
    · exact List.not_mem_nil
    · obtain ⟨c, hc, rfl⟩ := List.mem_map.mp hs
      exact (h.2 c hc).no_slash
  rw [segments, htext, List.splitOn_intercalate slash hslash (List.cons_ne_nil _ _)]

/-- Below the root only names are kept. -/
def Grounded (kept : List Component) : Prop :=
  ∃ names : List (List UInt8), kept = names.map .name ++ [.root]

theorem Grounded.cleanStep {kept : List Component} (h : Grounded kept) (hc : c.Later) :
    Grounded (cleanStep kept c) := by
  obtain ⟨names, rfl⟩ := h
  cases c with
  | root => exact absurd hc Component.not_later_root
  | here => exact absurd hc Component.not_later_here
  | name text => exact ⟨text :: names, rfl⟩
  | up =>
    cases names with
    | nil => exact ⟨[], rfl⟩
    | cons text names => exact ⟨names, rfl⟩

theorem components_clean_of_isAbsolute (h : p.isAbsolute) :
    ∃ names : List (List UInt8), p.clean.components = .root :: names.map .name := by
  obtain ⟨cs, hcs, hlater⟩ := components_of_isAbsolute h
  have hkept : Grounded (cs.foldl Path.cleanStep [.root]) :=
    List.foldlRecOn cs _ (show Grounded [.root] from ⟨[], rfl⟩)
      fun _ hk c hc => hk.cleanStep (hlater c hc)
  obtain ⟨names, hnames⟩ := hkept
  have hclean : cleanComponents p.components = .root :: names.reverse.map .name := by
    rw [cleanComponents, hcs, List.foldl_cons]
    change (cs.foldl Path.cleanStep [.root]).reverse = _
    rw [hnames]
    simp
  exact ⟨names.reverse, by rw [components_clean, hclean, if_neg (List.cons_ne_nil _ _)]⟩

theorem normal_clean (h : p.isAbsolute) : p.clean.Normal := by
  obtain ⟨names, hnames⟩ := components_clean_of_isAbsolute h
  have hspell := spellable_components p.clean
  rw [clean_eq_ofComponents, hnames]
  rw [hnames] at hspell
  cases names with
  | nil => exact ⟨by decide, by decide, by decide⟩
  | cons text names =>
    have hne : (text :: names).map Component.name ≠ [] := List.cons_ne_nil _ _
    have hsegments := segments_ofComponents hne hspell
    have hread : ∀ s ∈ (ofComponents (.root :: (text :: names).map .name)).segments,
        s = [] ∨ ∃ name, laterComponent? s = some (.name name) := by
      intro s hs
      rw [hsegments] at hs
      rcases List.mem_cons.mp hs with rfl | hs
      · exact .inl rfl
      · obtain ⟨c, hc, rfl⟩ := List.mem_map.mp hs
        obtain ⟨name, -, rfl⟩ := List.mem_map.mp hc
        exact .inr ⟨name, (hspell.2 _ hc).read⟩
    refine ⟨isAbsolute_of_segments hsegments, fun hdot => ?_, fun hdots => ?_⟩
    · rcases hread _ hdot with h | ⟨name, h⟩ <;> cases h
    · rcases hread _ hdots with h | ⟨name, h⟩ <;> cases h

theorem normal_resolve (hb : base.isAbsolute) (p : Path) : (base.resolve p).Normal :=
  normal_clean (isAbsolute_join hb p)

end Path

end CompileIndex
