import CompileIndex.Proofs.Path.Absolute
import CompileIndex.Proofs.Text.Utf8

/-!
# Paths that are texts

A path that is a text is spelled by it, and so is what is left of it below a folder. Any path has the
text in which U+FFFD stands for the rest; the root at its beginning is not lost in it.
-/
namespace CompileIndex

namespace Text.Utf8

variable {c : Char} {s t : List UInt8} {r : Reading}

/-! ## Slashes -/

theorem slash_ne_ofNat {w : Nat} (hw : w < 256) (h : w ≠ 0x2F) : slash ≠ .ofNat w := by
  intro heq
  have hnat := congrArg UInt8.toNat heq
  rw [toNat_ofNat hw] at hnat
  exact h hnat.symm

theorem slash_notMem_utf8EncodeChar (hc : c ≠ '/') : slash ∉ String.utf8EncodeChar c := by
  have hv : c.val.toNat ≠ 0x2F := fun h => hc (Char.toNat_inj.mp h)
  intro hmem
  rw [String.utf8EncodeChar] at hmem
  generalize c.val.toNat = v at hv hmem
  split at hmem
  · exact slash_ne_ofNat (by omega) hv (List.mem_singleton.mp hmem)
  -- All octets of a longer character are above those of one octet.
  split at hmem
  · simp only [List.mem_cons, List.not_mem_nil, or_false] at hmem
    rcases hmem with h | h <;> exact slash_ne_ofNat (by omega) (by omega) h
  split at hmem <;> simp only [List.mem_cons, List.not_mem_nil, or_false] at hmem
  · rcases hmem with h | h | h <;> exact slash_ne_ofNat (by omega) (by omega) h
  · rcases hmem with h | h | h | h <;> exact slash_ne_ofNat (by omega) (by omega) h

/-- The octets of some text. -/
def Encoded (s : List UInt8) : Prop := ∃ cs : List Char, s = cs.flatMap String.utf8EncodeChar

theorem encoded_encode (text : String) : Encoded (encode text) := ⟨text.toList, rfl⟩

theorem Encoded.append (hs : Encoded s) (ht : Encoded t) : Encoded (s ++ t) := by
  obtain ⟨cs, rfl⟩ := hs
  obtain ⟨ds, rfl⟩ := ht
  exact ⟨cs ++ ds, List.flatMap_append.symm⟩

theorem encoded_intercalate {ts : List (List UInt8)} (h : ∀ t ∈ ts, Encoded t) :
    Encoded ([slash].intercalate ts) := by
  induction ts with
  | nil => exact encoded_encode ""
  | cons t rest ih =>
    have ht := h t List.mem_cons_self
    cases rest with
    | nil => simpa using ht
    | cons u rest =>
      rw [List.intercalate_cons_cons]
      have hrest := ih fun v hv => h v (List.mem_cons_of_mem t hv)
      exact (ht.append (encoded_encode "/")).append hrest

theorem flatMap_intercalate (pieces : List (List Char)) :
    (['/'].intercalate pieces).flatMap String.utf8EncodeChar =
      [slash].intercalate (pieces.map (·.flatMap String.utf8EncodeChar)) := by
  induction pieces with
  | nil => rfl
  | cons p rest ih =>
    cases rest with
    | nil => simp
    | cons q rest =>
      have hslash : ['/'].flatMap String.utf8EncodeChar = [slash] := by decide
      rw [List.intercalate_cons_cons, List.flatMap_append, List.flatMap_append, hslash, ih]
      simp only [List.map_cons, List.intercalate_cons_cons]

/-- Only a slash has the octet of one. -/
theorem splitOn_flatMap (cs : List Char) :
    (cs.flatMap String.utf8EncodeChar).splitOn slash =
      (cs.splitOn '/').map (·.flatMap String.utf8EncodeChar) := by
  have hnone : ∀ t ∈ (cs.splitOn '/').map (·.flatMap String.utf8EncodeChar), slash ∉ t := by
    intro t ht hslash
    obtain ⟨piece, hpiece, rfl⟩ := List.mem_map.mp ht
    obtain ⟨c, hc, hmem⟩ := List.mem_flatMap.mp hslash
    refine slash_notMem_utf8EncodeChar ?_ hmem
    rintro rfl
    exact Path.notMem_of_mem_splitOn hpiece hc
  have hne : (cs.splitOn '/').map (·.flatMap String.utf8EncodeChar) ≠ [] := by
    simp [List.splitOn_ne_nil]
  rw [← List.splitOn_intercalate slash hnone hne, ← flatMap_intercalate, List.intercalate_splitOn]

theorem Encoded.of_mem_splitOn (hs : Encoded s) (ht : t ∈ s.splitOn slash) : Encoded t := by
  obtain ⟨cs, rfl⟩ := hs
  rw [splitOn_flatMap] at ht
  obtain ⟨piece, -, rfl⟩ := List.mem_map.mp ht
  exact ⟨piece, rfl⟩

/-! ## Reading with replacements -/

theorem done_take (done : List Char) (b : UInt8) :
    ∃ new, (Reading.take done b).done = new ++ done := by
  rw [Reading.take]
  split
  · exact ⟨[_], rfl⟩
  · exact ⟨[], rfl⟩
  · exact ⟨[_], rfl⟩

theorem done_next (r : Reading) (b : UInt8) : ∃ new, (r.next b).done = new ++ r.done := by
  rw [Reading.next]
  split
  · exact done_take r.done b
  · split
    · exact ⟨[_], rfl⟩
    · exact ⟨[], rfl⟩
    · obtain ⟨new, hnew⟩ := done_take (replacement :: r.done) b
      exact ⟨new ++ [replacement], by rw [hnew, List.append_assoc, List.singleton_append]⟩

/-- What is read stays as it is. -/
theorem done_foldl (octets : List UInt8) (r : Reading) :
    ∃ new, (octets.foldl Reading.next r).done = new ++ r.done := by
  induction octets generalizing r with
  | nil => exact ⟨[], rfl⟩
  | cons b rest ih =>
    obtain ⟨first, hfirst⟩ := done_next r b
    obtain ⟨more, hmore⟩ := ih (r.next b)
    exact ⟨more ++ first, by rw [List.foldl_cons, hmore, hfirst, List.append_assoc]⟩

theorem toList_lossy_slash (s : List UInt8) : ∃ t, (lossy (slash :: s)).toList = '/' :: t := by
  have hfirst : Reading.next .empty slash = ⟨['/'], none⟩ := rfl
  obtain ⟨new, hnew⟩ := done_foldl s ⟨['/'], none⟩
  rw [lossy, List.foldl_cons, hfirst, Reading.text, String.toList_ofList, hnew]
  split
  · exact ⟨new.reverse ++ [replacement], by simp⟩
  · exact ⟨new.reverse, by simp⟩

end Text.Utf8

namespace Path

open Text.Utf8 (Encoded encoded_encode encoded_intercalate)

variable {p q base r : Path} {text : String}

theorem text_mk (text : String) : (mk text).text = text := Text.Utf8.lossy_encode text

theorem isText_iff : p.isText ↔ ∃ text, p = .mk text := by
  rw [isText, Option.isSome_iff_exists]
  refine exists_congr fun text => ?_
  rw [text?, Text.Utf8.text?_eq_some_iff]
  exact ⟨fun h => congrArg ofOctets h, fun h => congrArg octets h⟩

theorem mk_text (h : p.isText) : .mk p.text = p := by
  obtain ⟨text, rfl⟩ := isText_iff.mp h
  rw [text_mk]

theorem isText_iff_encoded : p.isText ↔ Encoded p.octets := by
  rw [isText_iff]
  constructor
  · rintro ⟨text, rfl⟩
    exact encoded_encode text
  · rintro ⟨cs, hcs⟩
    refine ⟨String.ofList cs, congrArg ofOctets (hcs.trans ?_)⟩
    simp [Text.Utf8.encode]

theorem head_text (h : p.isAbsolute) : p.text.toList.head? = some '/' := by
  obtain ⟨s, hs⟩ := isAbsolute_iff_octets.mp h
  obtain ⟨t, ht⟩ := Text.Utf8.toList_lossy_slash s
  rw [text, hs, ht, List.head?_cons]

theorem isAbsolute_mk (h : text.toList.head? = some '/') : (mk text).isAbsolute := by
  obtain ⟨t, ht⟩ := List.head?_eq_some_iff.mp h
  rw [isAbsolute_iff_octets]
  refine ⟨t.flatMap String.utf8EncodeChar, ?_⟩
  change Text.Utf8.encode text = _
  rw [Text.Utf8.encode, ht]
  rfl

theorem mem_segments_of_mem_parts {part : Part} (h : part ∈ p.parts) : part.1 ∈ p.segments := by
  rw [segments]
  rw [parts] at h
  split at h
  · exact absurd h List.not_mem_nil
  · next first rest hsplit =>
    rw [hsplit]
    rcases List.mem_cons.mp h with rfl | h
    · exact List.mem_cons_self
    · obtain ⟨s, hs, rfl⟩ := List.mem_map.mp h
      exact List.mem_cons_of_mem first hs

theorem isText_spell {ps : List Part} (h : ∀ part ∈ ps, Encoded part.1) : (spell ps).isText := by
  rw [isText_iff_encoded]
  unfold spell
  split
  · exact encoded_encode "/"
  · exact encoded_intercalate fun t ht => by
      obtain ⟨part, hpart, rfl⟩ := List.mem_map.mp ht
      exact h part hpart

theorem isText_below (hp : p.isText) (h : p.below? base = some r) : r.isText := by
  obtain ⟨rest, hdrop, rfl⟩ := Option.map_eq_some_iff.mp h
  obtain ⟨taken, hparts, -⟩ := dropComponents_eq_some hdrop
  refine isText_spell fun part hpart => ?_
  -- What is left was cut at slashes, where no character of a text is cut.
  have hrest : part ∈ rest := by
    have htrim := (List.dropWhile_sublist _).subset (List.mem_reverse.mp hpart)
    rw [List.mem_reverse] at htrim
    split at htrim
    · exact htrim
    · exact (List.dropWhile_sublist _).subset htrim
  have hmem : part ∈ p.parts := by
    rw [hparts]
    exact List.mem_append_right taken hrest
  exact (isText_iff_encoded.mp hp).of_mem_splitOn (mem_segments_of_mem_parts hmem)

end Path

end CompileIndex
