import CompileIndex.Text.Utf8

/-!
# Texts as octets

The octets of a text are read as this text, by the reader that replaces what is no character too.
-/
namespace CompileIndex.Text.Utf8

variable {v w : Nat} {p : Partial} {c : Char} {octets : List UInt8} {s : String}

theorem toNat_ofNat (h : w < 256) : (UInt8.ofNat w).toNat = w := by
  rw [UInt8.toNat_ofNat', Nat.mod_eq_of_lt h]

/-! ## Characters -/

theorem lead?_ofNat (h : w < 256) : lead? 0 (.ofNat w) =
    if 0xC2 ≤ w ∧ w ≤ 0xDF then some ⟨0, 1, 0x80, 0xBF, w - 0xC0⟩
    else if w = 0xE0 then some ⟨0, 2, 0xA0, 0xBF, 0⟩
    else if w = 0xED then some ⟨0, 2, 0x80, 0x9F, 0xD⟩
    else if 0xE1 ≤ w ∧ w ≤ 0xEF then some ⟨0, 2, 0x80, 0xBF, w - 0xE0⟩
    else if w = 0xF0 then some ⟨0, 3, 0x90, 0xBF, 0⟩
    else if w = 0xF4 then some ⟨0, 3, 0x80, 0x8F, 4⟩
    else if 0xF1 ≤ w ∧ w ≤ 0xF3 then some ⟨0, 3, 0x80, 0xBF, w - 0xF0⟩
    else none := by
  simp only [lead?, UInt8.le_iff_toNat_le, ← UInt8.toNat_inj, toNat_ofNat h, UInt8.reduceToNat]

theorem take_ascii (h : w < 0x80) (done : List Char) :
    Reading.take done (.ofNat w) = ⟨.ofNat w :: done, none⟩ := by
  have hw : w < 256 := by omega
  simp only [Reading.take, begin, UInt8.lt_iff_toNat_lt, toNat_ofNat hw, UInt8.reduceToNat, h,
    if_true]

theorem take_of_lead (hw : 0x80 ≤ w) (h : w < 256) (hlead : lead? 0 (.ofNat w) = some p)
    (done : List Char) : Reading.take done (.ofNat w) = ⟨done, some p⟩ := by
  have hnot : ¬ w < 0x80 := by omega
  simp only [Reading.take, begin, UInt8.lt_iff_toNat_lt, toNat_ofNat h, UInt8.reduceToNat, hnot,
    if_false, hlead]

theorem next_ofNat (h : w < 0x40) (hlow : p.low.toNat ≤ w + 0x80) (hhigh : w + 0x80 ≤ p.high.toNat) :
    p.next (.ofNat (w + 0x80)) =
      if p.owed = 1 then .char (.ofNat (p.bits * 64 + w))
      else .begun ⟨p.start, p.owed - 1, 0x80, 0xBF, p.bits * 64 + w⟩ := by
  have hw : w + 0x80 < 256 := by omega
  simp only [Partial.next, UInt8.le_iff_toNat_le, toNat_ofNat hw, hlow, hhigh, and_self, if_true,
    Nat.add_sub_cancel]

theorem next_last (h : w < 0x40) (done : List Char) (bits : Nat) :
    Reading.next ⟨done, some ⟨0, 1, 0x80, 0xBF, bits⟩⟩ (.ofNat (w + 0x80)) =
      ⟨.ofNat (bits * 64 + w) :: done, none⟩ := by
  have hnext : Partial.next ⟨0, 1, 0x80, 0xBF, bits⟩ (.ofNat (w + 0x80)) =
      .char (.ofNat (bits * 64 + w)) :=
    next_ofNat h (by simp) (by simp; omega)
  simp only [Reading.next, hnext]

theorem next_more {owed : Nat} {low high : UInt8} (h : w < 0x40) (hlow : low.toNat ≤ w + 0x80)
    (hhigh : w + 0x80 ≤ high.toNat) (howed : owed ≠ 0) (done : List Char) (bits : Nat) :
    Reading.next ⟨done, some ⟨0, owed + 1, low, high, bits⟩⟩ (.ofNat (w + 0x80)) =
      ⟨done, some ⟨0, owed, 0x80, 0xBF, bits * 64 + w⟩⟩ := by
  have hnext : Partial.next ⟨0, owed + 1, low, high, bits⟩ (.ofNat (w + 0x80)) =
      .begun ⟨0, owed, 0x80, 0xBF, bits * 64 + w⟩ := by
    rw [next_ofNat h hlow hhigh, if_neg (by simpa using howed), Nat.add_sub_cancel]
  simp only [Reading.next, hnext]

theorem lead?_two (h : 0x7F < v) (h' : v ≤ 0x7FF) :
    lead? 0 (.ofNat (v / 64 % 32 + 192)) = some ⟨0, 1, 0x80, 0xBF, v / 64⟩ := by
  have hbits : v / 64 % 32 + 192 - 0xC0 = v / 64 := by omega
  rw [lead?_ofNat (by omega), if_pos (by omega), hbits]

/-- Surrogates are left out by the range of the second octet. -/
theorem lead?_three (h : 0x7FF < v) (h' : v ≤ 0xFFFF) (hv : v < 0xD800 ∨ 0xDFFF < v) :
    ∃ low high : UInt8, low.toNat ≤ v / 64 % 64 + 128 ∧ v / 64 % 64 + 128 ≤ high.toNat ∧
      lead? 0 (.ofNat (v / 4096 % 16 + 224)) = some ⟨0, 2, low, high, v / 4096⟩ := by
  rw [lead?_ofNat (by omega), if_neg (by omega)]
  by_cases hfirst : v / 4096 = 0
  · exact ⟨0xA0, 0xBF, by simp; omega, by simp; omega, by simp [hfirst]⟩
  by_cases hsurrogates : v / 4096 = 13
  · exact ⟨0x80, 0x9F, by simp, by simp; omega, by simp [hsurrogates]⟩
  refine ⟨0x80, 0xBF, by simp, by simp; omega, ?_⟩
  have hbits : v / 4096 % 16 + 224 - 0xE0 = v / 4096 := by omega
  rw [if_neg (by omega), if_neg (by omega), if_pos (by omega), hbits]

theorem lead?_four (h : 0xFFFF < v) (h' : v < 0x110000) :
    ∃ low high : UInt8, low.toNat ≤ v / 4096 % 64 + 128 ∧ v / 4096 % 64 + 128 ≤ high.toNat ∧
      lead? 0 (.ofNat (v / 262144 % 8 + 240)) = some ⟨0, 3, low, high, v / 262144⟩ := by
  rw [lead?_ofNat (by omega), if_neg (by omega), if_neg (by omega), if_neg (by omega),
    if_neg (by omega)]
  by_cases hfirst : v / 262144 = 0
  · exact ⟨0x90, 0xBF, by simp; omega, by simp; omega, by simp [hfirst]⟩
  by_cases hlast : v / 262144 = 4
  · exact ⟨0x80, 0x8F, by simp, by simp; omega, by simp [hlast]⟩
  refine ⟨0x80, 0xBF, by simp, by simp; omega, ?_⟩
  have hbits : v / 262144 % 8 + 240 - 0xF0 = v / 262144 := by omega
  rw [if_neg (by omega), if_neg (by omega), if_pos (by omega), hbits]

theorem foldl_utf8EncodeChar (c : Char) (done : List Char) :
    (String.utf8EncodeChar c).foldl Reading.next ⟨done, none⟩ = ⟨c :: done, none⟩ := by
  have hc : Char.ofNat c.val.toNat = c := Char.ofNat_toNat c
  have hvalid : c.val.toNat < 0xD800 ∨ 0xDFFF < c.val.toNat ∧ c.val.toNat < 0x110000 := c.valid
  rw [String.utf8EncodeChar]
  generalize c.val.toNat = v at hc hvalid
  -- One case for each length. The bits that the octets carry make up `v` again.
  have hnone (b : UInt8) : Reading.next ⟨done, none⟩ b = Reading.take done b := rfl
  split
  · rw [List.foldl_cons, List.foldl_nil, hnone, take_ascii (by omega), hc]
  split
  · have hlead := lead?_two (v := v) (by omega) (by omega)
    have hbits : v / 64 * 64 + v % 64 = v := by omega
    rw [List.foldl_cons, List.foldl_cons, List.foldl_nil, hnone,
      take_of_lead (by omega) (by omega) hlead, next_last (by omega), hbits, hc]
  split
  · obtain ⟨low, high, hlow, hhigh, hlead⟩ :=
      lead?_three (v := v) (by omega) (by omega) (by omega)
    have hbits : (v / 4096 * 64 + v / 64 % 64) * 64 + v % 64 = v := by omega
    rw [List.foldl_cons, List.foldl_cons, List.foldl_cons, List.foldl_nil, hnone,
      take_of_lead (by omega) (by omega) hlead, next_more (by omega) hlow hhigh (by simp),
      next_last (by omega), hbits, hc]
  · obtain ⟨low, high, hlow, hhigh, hlead⟩ := lead?_four (v := v) (by omega) (by omega)
    have hbits : ((v / 262144 * 64 + v / 4096 % 64) * 64 + v / 64 % 64) * 64 + v % 64 = v := by
      omega
    rw [List.foldl_cons, List.foldl_cons, List.foldl_cons, List.foldl_cons, List.foldl_nil, hnone,
      take_of_lead (by omega) (by omega) hlead, next_more (by omega) hlow hhigh (by simp),
      next_more (by omega) (by simp) (by simp; omega) (by simp), next_last (by omega), hbits, hc]

theorem foldl_encode (chars done : List Char) :
    (chars.flatMap String.utf8EncodeChar).foldl Reading.next ⟨done, none⟩ =
      ⟨chars.reverse ++ done, none⟩ := by
  induction chars generalizing done with
  | nil => rfl
  | cons c rest ih =>
    rw [List.flatMap_cons, List.foldl_append, foldl_utf8EncodeChar, ih, List.reverse_cons,
      List.append_assoc, List.singleton_append]

theorem lossy_encode (s : String) : lossy (encode s) = s := by
  rw [lossy, encode, Reading.empty, foldl_encode, Reading.text]
  simp

theorem text?_eq_some_iff : text? octets = some s ↔ octets = encode s := by
  rw [text?]
  constructor
  · intro h
    split at h
    · next heq =>
      obtain rfl := Option.some.inj h
      exact heq.symm
    · cases h
  · rintro rfl
    rw [lossy_encode, if_pos rfl]

end CompileIndex.Text.Utf8
