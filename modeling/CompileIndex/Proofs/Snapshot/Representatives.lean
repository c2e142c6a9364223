import CompileIndex.Proofs.Path.Above
import CompileIndex.Snapshot
import Mathlib.Data.List.Induction

/-!
# The files that stand for folders

The walks up from the folders with files of their own stop where another walk has been. They still
give a file to every folder above a file, and to each the first file from which it can be reached
without passing a folder with files of its own.
-/
namespace CompileIndex

namespace PathMap

variable {α : Type} {t : PathMap α} {p q : Path}

theorem getElem?_of_components_eq (h : p.components = q.components) : t[p]? = t[q]? :=
  Std.TreeMap.getElem?_congr (Path.compare_eq_iff.mpr h)

theorem mem_of_components_eq (h : p.components = q.components) : p ∈ t ↔ q ∈ t :=
  Std.TreeMap.mem_congr (Path.compare_eq_iff.mpr h)

theorem mem_of_getElem? {v : α} (h : t[p]? = some v) : p ∈ t :=
  Std.TreeMap.mem_iff_isSome_getElem?.mpr (by simp [h])

theorem exists_getElem? (h : p ∈ t) : ∃ v, t[p]? = some v :=
  Option.isSome_iff_exists.mp (Std.TreeMap.mem_iff_isSome_getElem?.mp h)

theorem getElem?_of_mem_toList {v : α} (h : (p, v) ∈ t.toList) : t[p]? = some v :=
  Std.TreeMap.getElem?_eq_some_iff_exists_compare_eq_eq_and_mem_toList.mpr
    ⟨p, Std.ReflCmp.compare_self, h⟩

theorem mem_iff_exists_toList : p ∈ t ↔ ∃ e ∈ t.toList, e.1.components = p.components := by
  constructor
  · intro h
    obtain ⟨v, hv⟩ := exists_getElem? h
    obtain ⟨k, hc, hm⟩ :=
      Std.TreeMap.getElem?_eq_some_iff_exists_compare_eq_eq_and_mem_toList.mp hv
    exact ⟨(k, v), hm, (Path.compare_eq_iff.mp hc).symm⟩
  · rintro ⟨⟨k, v⟩, hm, hc⟩
    exact (mem_of_components_eq hc).mp (mem_of_getElem? (getElem?_of_mem_toList hm))

theorem mem_iff_exists_key : p ∈ t ↔ ∃ k ∈ t.keys, k.components = p.components := by
  rw [mem_iff_exists_toList, ← Std.TreeMap.map_fst_toList_eq_keys]
  constructor
  · rintro ⟨e, he, hc⟩
    exact ⟨e.1, List.mem_map_of_mem he, hc⟩
  · rintro ⟨k, hk, hc⟩
    obtain ⟨e, he, rfl⟩ := List.mem_map.mp hk
    exact ⟨e, he, hc⟩

end PathMap

namespace Snapshot

open CompileIndex.Path (IsAbove)

variable {t own : PathMap Path} {d f g : Path}

def LiesIn (f d : Path) : Prop := f.parent?.any (·.same d)

instance (f d : Path) : Decidable (LiesIn f d) := inferInstanceAs (Decidable (_ = true))

theorem liesIn_iff : LiesIn f d ↔ ∃ q, f.parent? = some q ∧ q.components = d.components := by
  simp [LiesIn, Option.any_eq_true, Path.same]

theorem LiesIn.isAbove (h : LiesIn f d) : IsAbove d f := by
  obtain ⟨q, hq, hc⟩ := liesIn_iff.mp h
  exact (Path.isAbove_iff_of_parent hq).mpr (.inl hc.symm)

/-- A folder above a file is the file's own, or it is above the file's own. -/
theorem LiesIn.isAbove_iff (h : LiesIn f g) :
    IsAbove d f ↔ d.components = g.components ∨ IsAbove d g := by
  obtain ⟨q, hq, hc⟩ := liesIn_iff.mp h
  rw [Path.isAbove_iff_of_parent hq, hc]
  exact or_congr_right ⟨(·.congr_right hc), (·.congr_right hc.symm)⟩

theorem LiesIn.congr_right (h : LiesIn f d) (hc : d.components = g.components) : LiesIn f g := by
  obtain ⟨q, hq, hqd⟩ := liesIn_iff.mp h
  exact liesIn_iff.mpr ⟨q, hq, hqd.trans hc⟩

theorem exists_liesIn (h : IsAbove d f) : ∃ g, LiesIn f g := by
  obtain ⟨g, hg⟩ := h.exists_parent
  exact ⟨g, liesIn_iff.mpr ⟨g, hg, rfl⟩⟩

theorem LiesIn.congr_left {f' : Path} (h : LiesIn f d) (hc : f.components = f'.components) :
    LiesIn f' d := by
  obtain ⟨g, hg⟩ := exists_liesIn (h.isAbove.congr_right hc)
  rcases hg.isAbove_iff.mp (h.isAbove.congr_right hc) with hd | hd
  · exact hg.congr_right hd.symm
  · rcases h.isAbove_iff.mp (hg.isAbove.congr_right hc.symm) with hd' | hd'
    · exact hg.congr_right hd'
    · exact (hd.asymm hd').elim

/-- A walk over the folders comes to `d` and passes nothing that the table has. -/
def Reaches (t : PathMap Path) (folders : List Path) (d : Path) : Prop :=
  d.components ∈ folders.map Path.components ∧
    ∀ a ∈ folders, a.components = d.components ∨ IsAbove d a → a ∉ t

instance (t : PathMap Path) (folders : List Path) (d : Path) : Decidable (Reaches t folders d) :=
  inferInstanceAs (Decidable (_ ∧ ∀ a ∈ folders, _ ∨ _ → _))

theorem getElem?_climb (f : Path) (t : PathMap Path) {folders : List Path}
    (hf : folders.Pairwise fun q d => IsAbove d q) (d : Path) :
    (climb f t folders)[d]? = t[d]?.or (if Reaches t folders d then some f else none) := by
  induction folders generalizing t with
  | nil => simp [climb, Reaches]
  | cons q rest ih =>
    obtain ⟨hq, hrest⟩ := List.pairwise_cons.mp hf
    by_cases hm : q ∈ t
    · have hn : ¬ Reaches t (q :: rest) d := by
        rintro ⟨hd, hfree⟩
        rcases List.mem_cons.mp hd with hd | hd
        · exact hfree q List.mem_cons_self (.inl hd.symm) hm
        · obtain ⟨a, ha, hc⟩ := List.mem_map.mp hd
          exact hfree q List.mem_cons_self (.inr ((hq a ha).congr_left hc)) hm
      simp [climb, hm, hn]
    · have hins : (t.insert q f)[d]? = if q.components = d.components then some f else t[d]? := by
        simp [Std.TreeMap.getElem?_insert, Path.compare_eq_iff]
      rw [climb, if_neg hm, ih _ hrest, hins]
      by_cases hc : q.components = d.components
      · have hd : t[d]? = none := by
          rw [← PathMap.getElem?_of_components_eq hc]
          exact Std.TreeMap.getElem?_eq_none hm
        have hr : Reaches t (q :: rest) d := by
          refine ⟨by simp [hc], fun a ha h => ?_⟩
          rcases List.mem_cons.mp ha with rfl | ha
          · exact hm
          · have had : IsAbove a d := (hq a ha).congr_right hc
            rcases h with h | h
            · exact (had.congr_left h).irrefl.elim
            · exact (had.asymm h).elim
        simp [hc, hd, hr]
      · have hr : Reaches (t.insert q f) rest d ↔ Reaches t (q :: rest) d := by
          constructor
          · rintro ⟨hd, hfree⟩
            refine ⟨List.mem_cons_of_mem _ hd, fun a ha h => ?_⟩
            rcases List.mem_cons.mp ha with rfl | ha
            · exact hm
            · exact fun hmem => hfree a ha h (Std.TreeMap.mem_insert.mpr (.inr hmem))
          · rintro ⟨hd, hfree⟩
            have hd : d.components ∈ rest.map Path.components :=
              (List.mem_cons.mp hd).resolve_left (Ne.symm hc)
            refine ⟨hd, fun a ha h hmem => ?_⟩
            rcases Std.TreeMap.mem_insert.mp hmem with hqa | hmem
            · exact ((hq a ha).congr_left (Path.compare_eq_iff.mp hqa).symm).irrefl
            · exact hfree a (List.mem_cons_of_mem _ ha) h hmem
        rw [if_neg hc]
        simp only [hr]

def firstReaching (own : PathMap Path) (walks : List (Path × Path)) (d : Path) : Option Path :=
  (walks.find? fun g => Reaches own g.1.above d).map (·.2)

/-- For the walk up from `g`, said of the folders above `g` in any spelling. -/
theorem reaches_above_iff : Reaches t g.above d ↔
    IsAbove d g ∧ ∀ a, IsAbove a g → a.components = d.components ∨ IsAbove d a → a ∉ t := by
  refine and_congr_right fun _ => ⟨fun h a ha hda => ?_, fun h a ha hda => ?_⟩
  · obtain ⟨b, hb, hc⟩ := ha.exists_mem
    have hdb := hda.imp hc.trans (·.congr_right hc.symm)
    exact fun hm => h b hb hdb ((PathMap.mem_of_components_eq hc).mpr hm)
  · exact h a (Path.isAbove_of_mem ha) hda

theorem reaches_congr (h : f.components = g.components) :
    Reaches t f.above d ↔ Reaches t g.above d := by
  simp only [reaches_above_iff, Path.isAbove_iff, h]

/-- A walk that is stopped by an earlier walk misses nothing: the earlier one went on from there. -/
theorem reaches_iff_of_notMem {walks : List (Path × Path)}
    (ht : ∀ d, t[d]? = own[d]?.or (firstReaching own walks d)) (hd : d ∉ t) :
    Reaches t g.above d ↔ Reaches own g.above d := by
  have hown : ∀ a, a ∉ t → a ∉ own := by
    intro a ha hm
    obtain ⟨v, hv⟩ := PathMap.exists_getElem? hm
    have hta : t[a]? = some v := by simp [ht a, hv]
    exact ha (PathMap.mem_of_getElem? hta)
  simp only [reaches_above_iff]
  constructor
  · rintro ⟨hdg, hfree⟩
    exact ⟨hdg, fun a ha h => hown a (hfree a ha h)⟩
  · rintro ⟨hdg, hfree⟩
    refine ⟨hdg, fun a ha h hat => ?_⟩
    rcases h with h | hda
    · exact hd ((PathMap.mem_of_components_eq h).mp hat)
    obtain ⟨v, hv⟩ := PathMap.exists_getElem? hat
    have hao : own[a]? = none := Std.TreeMap.getElem?_eq_none (hfree a ha (.inr hda))
    rw [ht a, hao, Option.none_or] at hv
    obtain ⟨⟨b, w⟩, hb, _⟩ := Option.map_eq_some_iff.mp hv
    obtain ⟨hab, habfree⟩ := reaches_above_iff.mp (by simpa using List.find?_some hb)
    have hbd : Reaches own b.above d := by
      refine reaches_above_iff.mpr ⟨hda.trans hab, fun e heb hde => ?_⟩
      rcases IsAbove.linear hab heb with hae | hae | hea
      · exact habfree e heb (.inl hae.symm)
      · exact habfree e heb (.inr hae)
      · exact hfree e (hea.trans ha) hde
    have hfirst : (firstReaching own walks d).isSome := by
      simp only [firstReaching, Option.isSome_map, List.find?_isSome]
      exact ⟨(b, w), List.mem_of_find?_eq_some hb, by simpa using hbd⟩
    obtain ⟨v, hv⟩ := Option.isSome_iff_exists.mp hfirst
    have htd : (t[d]?).isSome := by simp [ht d, hv]
    exact hd (Std.TreeMap.mem_iff_isSome_getElem?.mpr htd)

theorem firstReaching_append (own : PathMap Path) (walks : List (Path × Path)) (g f d : Path) :
    firstReaching own (walks ++ [(g, f)]) d =
      (firstReaching own walks d).or (if Reaches own g.above d then some f else none) := by
  simp only [firstReaching, List.find?_append, Option.map_or]
  by_cases h : Reaches own g.above d <;> simp [h]

theorem getElem?_foldl_climb (own : PathMap Path) (walks : List (Path × Path)) (d : Path) :
    (walks.foldl (fun t (g, f) => climb f t g.above) own)[d]? =
      own[d]?.or (firstReaching own walks d) := by
  induction walks using List.reverseRecOn generalizing d with
  | nil => simp [firstReaching]
  | append_singleton walks walk ih =>
    obtain ⟨g, f⟩ := walk
    rw [List.foldl_append, List.foldl_cons, List.foldl_nil,
      getElem?_climb f _ (Path.above_pairwise g), firstReaching_append, ← Option.or_assoc, ← ih d]
    by_cases hd : d ∈ walks.foldl (fun t (g, f) => climb f t g.above) own
    · obtain ⟨v, hv⟩ := PathMap.exists_getElem? hd
      simp [hv]
    · simp only [reaches_iff_of_notMem ih hd]

theorem ownFolders_append_of_parent (files : List Path) (h : f.parent? = some g) :
    ownFolders (files ++ [f]) = (ownFolders files).insertIfNew g f := by
  simp [ownFolders, List.foldl_append, h]

theorem ownFolders_append_of_no_parent (files : List Path) (h : f.parent? = none) :
    ownFolders (files ++ [f]) = ownFolders files := by
  simp [ownFolders, List.foldl_append, h]

theorem getElem?_ownFolders (files : List Path) (d : Path) :
    (ownFolders files)[d]? = files.find? (LiesIn · d) := by
  induction files using List.reverseRecOn with
  | nil => simp [ownFolders]
  | append_singleton files f ih =>
    rw [List.find?_append]
    cases hq : f.parent? with
    | none =>
      have hn : ¬ LiesIn f d := by simp [LiesIn, hq]
      simp [ownFolders_append_of_no_parent files hq, hn, ih]
    | some q =>
      have hl : LiesIn f d ↔ q.components = d.components := by simp [liesIn_iff, hq]
      rw [ownFolders_append_of_parent files hq]
      simp only [Std.TreeMap.getElem?_insertIfNew, Path.compare_eq_iff]
      by_cases hc : q.components = d.components
      · rw [← ih]
        by_cases hm : q ∈ ownFolders files
        · obtain ⟨v, hv⟩ := PathMap.exists_getElem? hm
          rw [PathMap.getElem?_of_components_eq hc] at hv
          simp [hm, hv]
        · have hd : (ownFolders files)[d]? = none := by
            rw [← PathMap.getElem?_of_components_eq hc]
            exact Std.TreeMap.getElem?_eq_none hm
          simp [hm, hc, hl.mpr hc, hd]
      · simp [hc, mt hl.mp hc, ih]

theorem mem_ownFolders_iff {files : List Path} : d ∈ ownFolders files ↔ ∃ f ∈ files, LiesIn f d := by
  rw [Std.TreeMap.mem_iff_isSome_getElem?, getElem?_ownFolders, List.find?_isSome]
  simp

theorem getElem?_representatives (files : List Path) (d : Path) :
    (representatives files)[d]? =
      (ownFolders files)[d]?.or (firstReaching (ownFolders files) (ownFolders files).toList d) :=
  getElem?_foldl_climb _ _ d

theorem exists_reaches (hd : d ∉ own) (hg : g ∈ own) (h : IsAbove d g) :
    ∃ e ∈ own, Reaches own e.above d := by
  -- A walk that is stopped below `d` is stopped by a folder that is less deep.
  induction hn : g.depth using Nat.strongRecOn generalizing g with
  | ind n ih =>
    by_cases hr : Reaches own g.above d
    · exact ⟨g, hg, hr⟩
    · have hblocked : ∃ a ∈ g.above, (a.components = d.components ∨ IsAbove d a) ∧ a ∈ own := by
        by_contra hno
        push Not at hno
        exact hr ⟨h, hno⟩
      obtain ⟨a, ha, hda, hm⟩ := hblocked
      rcases hda with hc | hda
      · exact absurd ((PathMap.mem_of_components_eq hc).mp hm) hd
      · have hlt := (Path.isAbove_of_mem ha).depth_lt
        exact ih a.depth (hn ▸ hlt) hm hda rfl

/-- The first folder from which a walk comes to `d` is the least in the order of paths. -/
theorem firstReaching_toList (h : firstReaching own own.toList d = some f) :
    ∃ g, Reaches own g.above d ∧ own[g]? = some f ∧
      ∀ e ∈ own, Reaches own e.above d → (Path.compare g e).isLE := by
  obtain ⟨⟨g, f⟩, hg, rfl⟩ := Option.map_eq_some_iff.mp h
  obtain ⟨hr, before, after, hl, hbefore⟩ := List.find?_eq_some_iff_append.mp hg
  refine ⟨g, by simpa using hr, PathMap.getElem?_of_mem_toList (by simp [hl]), fun e he her => ?_⟩
  obtain ⟨k, hk, hke⟩ := PathMap.mem_iff_exists_toList.mp he
  have hord := own.ordered_keys_toList
  rw [hl] at hk hord
  rcases List.mem_append.mp hk with hk | hk
  · have hn := hbefore k hk
    simp only [Bool.not_eq_true', decide_eq_false_iff_not] at hn
    exact absurd ((reaches_congr hke).mpr her) hn
  rcases List.mem_cons.mp hk with rfl | hk
  · simp [Path.compare_eq_iff.mpr hke]
  · have hlt := (List.pairwise_cons.mp (List.pairwise_append.mp hord).2.1).1 k hk
    rw [← Std.TransCmp.congr_right (Path.compare_eq_iff.mpr hke), hlt]
    rfl

/-- The files of which one may stand for `d`: those below `d` that are reached from `d` going down
without passing a folder with files of its own. -/
structure Candidate (files : List Path) (d f : Path) : Prop where
  listed : f ∈ files
  below : IsAbove d f
  unobstructed : ∀ e, e.components = d.components ∨ IsAbove d e → IsAbove e f → ¬ LiesIn f e →
    ∀ f' ∈ files, ¬ LiesIn f' e

theorem candidate_of_liesIn {files : List Path} (hf : f ∈ files) (h : LiesIn f d) :
    Candidate files d f where
  listed := hf
  below := h.isAbove
  unobstructed := by
    intro e hde hef hn
    rcases hde with hde | hde
    · exact absurd (h.congr_right hde.symm) hn
    · rcases h.isAbove_iff.mp hef with hed | hed
      · exact (hde.congr_right hed).irrefl.elim
      · exact (hde.asymm hed).elim

theorem candidate_of_reaches {files : List Path} (hr : Reaches (ownFolders files) g.above d)
    (hf : f ∈ files) (h : LiesIn f g) : Candidate files d f where
  listed := hf
  below := (reaches_above_iff.mp hr).1.trans h.isAbove
  unobstructed := by
    intro e hde hef hn f' hf' hl
    rcases h.isAbove_iff.mp hef with heg | heg
    · exact hn (h.congr_right heg.symm)
    · exact (reaches_above_iff.mp hr).2 e heg hde (mem_ownFolders_iff.mpr ⟨f', hf', hl⟩)

theorem Candidate.cases {files : List Path} (h : Candidate files d f) :
    LiesIn f d ∨ d ∉ ownFolders files ∧
      ∃ g ∈ ownFolders files, LiesIn f g ∧ Reaches (ownFolders files) g.above d := by
  obtain ⟨g, hg⟩ := exists_liesIn h.below
  rcases hg.isAbove_iff.mp h.below with hc | hdg
  · exact .inl (hg.congr_right hc.symm)
  · have hfree : ∀ e, IsAbove e g → e.components = d.components ∨ IsAbove d e →
        e ∉ ownFolders files := by
      intro e heg hde hm
      obtain ⟨f', hf', hl⟩ := mem_ownFolders_iff.mp hm
      refine h.unobstructed e hde (hg.isAbove_iff.mpr (.inr heg)) (fun he => ?_) f' hf' hl
      rcases he.isAbove_iff.mp hg.isAbove with hc | hge
      · exact (heg.congr_right hc).irrefl
      · exact heg.asymm hge
    exact .inr ⟨hfree d hdg (.inl rfl), g, mem_ownFolders_iff.mpr ⟨f, h.listed, hg⟩, hg,
      reaches_above_iff.mpr ⟨hdg, hfree⟩⟩

theorem find?_isLE {files : List Path} {P : Path → Bool}
    (hs : files.Pairwise (Path.compare · · = .lt)) (h : files.find? P = some f) {f' : Path}
    (hf' : f' ∈ files) (hp : P f') : (Path.compare f f').isLE := by
  obtain ⟨_, before, after, rfl, hbefore⟩ := List.find?_eq_some_iff_append.mp h
  rcases List.mem_append.mp hf' with hf' | hf'
  · exact absurd hp (by simpa using hbefore f' hf')
  rcases List.mem_cons.mp hf' with rfl | hf'
  · exact Std.ReflCmp.isLE_rfl
  · simp [(List.pairwise_cons.mp (List.pairwise_append.mp hs).2.1).1 f' hf']

theorem LiesIn.components_eq (h : LiesIn f g) : ∃ c, f.components = g.components ++ [c] := by
  obtain ⟨q, hq, hc⟩ := liesIn_iff.mp h
  rw [← hc]
  exact Path.components_of_parent hq

/-- Files of different folders under `d` are in the order of their folders, unless one of these
folders is above the other. -/
theorem compare_of_liesIn {f' g' : Path} (hg : LiesIn f g) (hg' : LiesIn f' g')
    (hd : IsAbove d g) (hd' : IsAbove d g') (hn : ¬ IsAbove g g')
    (h : Path.compare g g' = .lt) : Path.compare f f' = .lt := by
  obtain ⟨c, hc⟩ := hg.components_eq
  obtain ⟨c', hc'⟩ := hg'.components_eq
  have hne : g.components ≠ g'.components := fun he => by
    rw [Path.compare_eq_iff.mpr he] at h
    cases h
  have hp : ¬ g.components <+: g'.components := fun hp =>
    hn (Path.isAbove_of_prefix hd hd' hp hne)
  rw [Path.compare, compareOn, hc, hc']
  exact Component.compare_append [c] [c'] h hp

theorem candidate_of_representative {files : List Path}
    (h : (representatives files)[d]? = some f) : Candidate files d f := by
  rw [getElem?_representatives] at h
  rcases Option.or_eq_some_iff.mp h with h | ⟨_, h⟩
  · rw [getElem?_ownFolders] at h
    exact candidate_of_liesIn (List.mem_of_find?_eq_some h) (by simpa using List.find?_some h)
  · obtain ⟨g, hr, hg, _⟩ := firstReaching_toList h
    rw [getElem?_ownFolders] at hg
    exact candidate_of_reaches hr (List.mem_of_find?_eq_some hg) (by simpa using List.find?_some hg)

/-- The file that stands for a folder is the least of those that may. -/
theorem representative_isLE {files : List Path} (hs : files.Pairwise (Path.compare · · = .lt))
    (h : (representatives files)[d]? = some f) {f' : Path} (hf' : Candidate files d f') :
    (Path.compare f f').isLE := by
  rw [getElem?_representatives] at h
  rcases Option.or_eq_some_iff.mp h with h | ⟨hn, h⟩
  · rcases hf'.cases with hl | ⟨hd, _⟩
    · rw [getElem?_ownFolders] at h
      exact find?_isLE hs h hf'.listed (by simpa using hl)
    · exact absurd (PathMap.mem_of_getElem? h) hd
  · obtain ⟨g, hr, hg, hleast⟩ := firstReaching_toList h
    rcases hf'.cases with hl | ⟨_, g', hg', hp', hr'⟩
    · obtain ⟨v, hv⟩ := PathMap.exists_getElem? (mem_ownFolders_iff.mpr ⟨f', hf'.listed, hl⟩)
      simp [hn] at hv
    · rw [getElem?_ownFolders] at hg
      have hfg : LiesIn f g := by simpa using List.find?_some hg
      rcases Ordering.isLE_iff_eq_lt_or_eq_eq.mp (hleast g' hg' hr') with hlt | heq
      · obtain ⟨hdg, _⟩ := reaches_above_iff.mp hr
        obtain ⟨hdg', hfree⟩ := reaches_above_iff.mp hr'
        have hown : g ∈ ownFolders files :=
          mem_ownFolders_iff.mpr ⟨f, List.mem_of_find?_eq_some hg, hfg⟩
        have hgg' : ¬ IsAbove g g' := fun h => hfree g h (.inr hdg) hown
        simp [compare_of_liesIn hfg hp' hdg hdg' hgg' hlt]
      · refine find?_isLE hs hg hf'.listed ?_
        simpa using hp'.congr_right (Path.compare_eq_iff.mp heq).symm

example : (representatives [⟨"/p/b/c.c"⟩, ⟨"/p/d.c"⟩])[(⟨"/"⟩ : Path)]? = some ⟨"/p/d.c"⟩ := by
  decide

theorem mem_representatives_iff {files : List Path} :
    d ∈ representatives files ↔ ∃ f ∈ files, IsAbove d f := by
  constructor
  · intro h
    obtain ⟨f, hf⟩ := PathMap.exists_getElem? h
    have hc := candidate_of_representative hf
    exact ⟨f, hc.listed, hc.below⟩
  · rintro ⟨f, hf, hd⟩
    obtain ⟨g, hg⟩ := exists_liesIn hd
    have hown : g ∈ ownFolders files := mem_ownFolders_iff.mpr ⟨f, hf, hg⟩
    rw [Std.TreeMap.mem_iff_isSome_getElem?, getElem?_representatives, Option.isSome_or]
    by_cases hm : d ∈ ownFolders files
    · simp [Std.TreeMap.mem_iff_isSome_getElem?.mp hm]
    · have hdg : IsAbove d g := by
        refine (hg.isAbove_iff.mp hd).resolve_left fun hc => ?_
        exact hm ((PathMap.mem_of_components_eq hc).mpr hown)
      obtain ⟨e, he, hr⟩ := exists_reaches hm hown hdg
      obtain ⟨k, hk, hke⟩ := PathMap.mem_iff_exists_toList.mp he
      have hfirst : (firstReaching (ownFolders files) (ownFolders files).toList d).isSome := by
        simp only [firstReaching, Option.isSome_map, List.find?_isSome]
        exact ⟨k, hk, by simpa using (reaches_congr hke).mpr hr⟩
      simp [hfirst]

/-- Which files are candidates does not depend on how the files are spelled. -/
theorem Candidate.congr {files files' : List Path} {f' : Path} (h : Candidate files d f)
    (hfiles : ∀ p ∈ files', ∃ q ∈ files, q.components = p.components) (hf' : f' ∈ files')
    (hc : f.components = f'.components) : Candidate files' d f' where
  listed := hf'
  below := h.below.congr_right hc
  unobstructed := by
    intro e hde hef hn p hp hl
    obtain ⟨q, hq, hqp⟩ := hfiles p hp
    refine h.unobstructed e hde (hef.congr_right hc.symm) ?_ q hq (hl.congr_left hqp.symm)
    exact fun hfe => hn (hfe.congr_left hc)

end Snapshot

end CompileIndex
