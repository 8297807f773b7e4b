import Mathlib.Data.UInt
import Mos6510.Text.Utf8

/-!
# Source text reads back from its bytes

The bytes of a text in UTF-8 split into one glyph for each of its characters
(`ofBytes_toUTF8`), so no stray byte arises, and what is said of the glyphs of
a text is said of its bytes.

* `continuation?_ofNat`: a continuation byte gives its payload back;
* `decode?_encode`: the bytes of a character decode to it, whatever follows;
* `split_encode`: splitting passes over exactly these bytes;
* `flatMap_bytes_ofBytes`: the other way round, the glyphs of any bytes have these bytes.
-/

namespace Mos6510.Text.Glyph

theorem toNat_ofNat {n : Nat} (h : n < 256) : (UInt8.ofNat n).toNat = n := by
  rw [UInt8.toNat_ofNat', Nat.mod_eq_of_lt h]

theorem ofNat_lt {b : UInt8} {n : Nat} (h : n < 256) : UInt8.ofNat n < b ↔ n < b.toNat := by
  rw [UInt8.lt_iff_toNat_lt, toNat_ofNat h]

/-- How `decode?` tells the ranges of a byte, as a statement about numbers. -/
theorem between_ofNat {a b : UInt8} {n : Nat} (h : n < 256) :
    (a ≤ UInt8.ofNat n && UInt8.ofNat n < b) = true ↔ a.toNat ≤ n ∧ n < b.toNat := by
  rw [Bool.and_eq_true, decide_eq_true_eq, decide_eq_true_eq, ofNat_lt h, UInt8.le_iff_toNat_le,
    toNat_ofNat h]

theorem continuation?_ofNat (n : Nat) :
    continuation? (UInt8.ofNat (n % 64 + 128)) = some (n % 64) := by
  have hbyte : n % 64 + 128 < 256 := by omega
  have hrange := (between_ofNat (a := 0x80) (b := 0xC0) hbyte).mpr
    ⟨Nat.le_add_left _ _, Nat.add_lt_add_right (Nat.mod_lt n (by decide)) 128⟩
  rw [continuation?, if_pos hrange, toNat_ofNat hbyte, Nat.add_sub_cancel]

section Widths

variable (n : Nat) (rest : List UInt8)

theorem decode?_one (h : n ≤ 127) : decode? (UInt8.ofNat n :: rest) = some (Char.ofNat n, 0) := by
  have hbyte : n < 256 := by omega
  have hone := (ofNat_lt (b := 0x80) hbyte).mpr (Nat.lt_succ_of_le h)
  rw [decode?, if_pos hone, toNat_ofNat hbyte]

theorem decode?_two (h : 127 < n) (hle : n ≤ 2047) :
    decode? (UInt8.ofNat (n / 64 % 32 + 192) :: UInt8.ofNat (n % 64 + 128) :: rest) =
      some (Char.ofNat n, 1) := by
  have hlead : n / 64 % 32 + 192 < 256 := by omega
  have hone := (ofNat_lt (b := 0x80) hlead).not.mpr (show ¬_ < 128 by omega)
  have htwo := (between_ofNat (a := 0xC2) (b := 0xE0) hlead).mpr
    (show 194 ≤ _ ∧ _ < 224 by omega)
  have hcode : n / 64 % 32 * 64 + n % 64 = n := by omega
  simp only [decode?, if_neg hone, if_pos htwo, toNat_ofNat hlead, Nat.add_sub_cancel,
    List.head?_cons, Option.bind_eq_bind, Option.bind_some, continuation?_ofNat, hcode]

theorem decode?_three (h : 2047 < n) (hle : n ≤ 65535) (hvalid : n < 0xD800 ∨ 0xDFFF < n) :
    decode? (UInt8.ofNat (n / 4096 % 16 + 224) :: UInt8.ofNat (n / 64 % 64 + 128) ::
      UInt8.ofNat (n % 64 + 128) :: rest) = some (Char.ofNat n, 2) := by
  have hlead : n / 4096 % 16 + 224 < 256 := by omega
  have hone := (ofNat_lt (b := 0x80) hlead).not.mpr (show ¬_ < 128 by omega)
  have htwo := (between_ofNat (a := 0xC2) (b := 0xE0) hlead).not.mpr
    (show ¬(194 ≤ _ ∧ _ < 224) by omega)
  have hthree := (between_ofNat (a := 0xE0) (b := 0xF0) hlead).mpr
    (show 224 ≤ _ ∧ _ < 240 by omega)
  have hcode : (n / 4096 % 16 * 64 + n / 64 % 64) * 64 + n % 64 = n := by omega
  have hscalar : (decide (0x800 ≤ n) && !(decide (0xD800 ≤ n) && decide (n < 0xE000))) = true := by
    simp
    omega
  simp only [decode?, if_neg hone, if_neg htwo, if_pos hthree, toNat_ofNat hlead,
    Nat.add_sub_cancel, List.head?_cons, List.drop_succ_cons, List.drop_zero, Option.bind_eq_bind,
    Option.bind_some, continuation?_ofNat, hcode, hscalar, if_true]

theorem decode?_four (h : 65535 < n) (hlt : n < 0x110000) :
    decode? (UInt8.ofNat (n / 262144 % 8 + 240) :: UInt8.ofNat (n / 4096 % 64 + 128) ::
      UInt8.ofNat (n / 64 % 64 + 128) :: UInt8.ofNat (n % 64 + 128) :: rest) =
        some (Char.ofNat n, 3) := by
  have hlead : n / 262144 % 8 + 240 < 256 := by omega
  -- the lead byte is none of the shorter forms
  have hone := (ofNat_lt (b := 0x80) hlead).not.mpr (show ¬_ < 128 by omega)
  have htwo := (between_ofNat (a := 0xC2) (b := 0xE0) hlead).not.mpr
    (show ¬(194 ≤ _ ∧ _ < 224) by omega)
  have hthree := (between_ofNat (a := 0xE0) (b := 0xF0) hlead).not.mpr
    (show ¬(224 ≤ _ ∧ _ < 240) by omega)
  have hfour := (between_ofNat (a := 0xF0) (b := 0xF5) hlead).mpr
    (show 240 ≤ _ ∧ _ < 245 by omega)
  have hcode : ((n / 262144 % 8 * 64 + n / 4096 % 64) * 64 + n / 64 % 64) * 64 + n % 64 = n := by
    omega
  have hscalar : (decide (0x10000 ≤ n) && decide (n < 0x110000)) = true := by
    simp
    omega
  simp only [decode?, if_neg hone, if_neg htwo, if_neg hthree, if_pos hfour, toNat_ofNat hlead,
    Nat.add_sub_cancel, List.head?_cons, List.drop_succ_cons, List.drop_zero, Option.bind_eq_bind,
    Option.bind_some, continuation?_ofNat, hcode, hscalar, if_true]

end Widths

/-- The bytes of a character decode to it, whatever follows. -/
theorem decode?_encode (c : Char) (rest : List UInt8) :
    decode? (String.utf8EncodeChar c ++ rest) =
      some (c, (String.utf8EncodeChar c).length - 1) := by
  have hvalid : c.toNat < 0xD800 ∨ 0xDFFF < c.toNat ∧ c.toNat < 0x110000 := c.valid
  have hchar : Char.ofNat c.toNat = c := Char.ofNat_toNat c
  unfold String.utf8EncodeChar
  simp only [Char.toNat_val]
  split_ifs with hone htwo hthree
  · exact (decode?_one c.toNat rest hone).trans (by rw [hchar]; rfl)
  · exact (decode?_two c.toNat rest (by omega) htwo).trans (by rw [hchar]; rfl)
  · exact (decode?_three c.toNat rest (by omega) hthree (by omega)).trans (by rw [hchar]; rfl)
  · exact (decode?_four c.toNat rest (by omega) (by omega)).trans (by rw [hchar]; rfl)

theorem split_drop (more : Nat) (bytes : List UInt8) :
    split more bytes = split 0 (bytes.drop more) := by
  induction more generalizing bytes with
  | zero => rfl
  | succ more ih =>
      cases bytes with
      | nil => rfl
      | cons b bytes => exact ih bytes

theorem split_encode (c : Char) (rest : List UInt8) :
    split 0 (String.utf8EncodeChar c ++ rest) = .char c :: split 0 rest := by
  have hdecode := decode?_encode c rest
  obtain ⟨b, bs, hbytes⟩ := List.exists_cons_of_ne_nil (String.utf8EncodeChar_ne_nil (c := c))
  rw [hbytes] at hdecode ⊢
  simp only [List.cons_append] at hdecode ⊢
  rw [split, hdecode]
  show .char c :: split ((b :: bs).length - 1) (bs ++ rest) = _
  rw [split_drop, List.length_cons, Nat.add_sub_cancel, List.drop_left]

theorem split_encodeAll (cs : List Char) :
    split 0 (cs.flatMap String.utf8EncodeChar) = cs.map .char := by
  induction cs with
  | nil => rfl
  | cons c cs ih => rw [List.flatMap_cons, split_encode, ih, List.map_cons]

/-! ## Bytes of glyphs -/

def bytes : Glyph → List UInt8
  | char c => String.utf8EncodeChar c
  | stray b => [b]

theorem eq_of_continuation? {b : UInt8} {n : Nat} (h : continuation? b = some n) :
    128 ≤ b.toNat ∧ b.toNat < 192 ∧ n = b.toNat - 128 := by
  unfold continuation? at h
  split at h
  · rename_i hrange
    rw [Bool.and_eq_true, decide_eq_true_eq, decide_eq_true_eq, UInt8.le_iff_toNat_le,
      UInt8.lt_iff_toNat_lt] at hrange
    exact ⟨hrange.1, hrange.2, (Option.some.inj h).symm⟩
  · cases h

theorem toNat_ofNat_valid {n : Nat} (h : n.isValidChar) : (Char.ofNat n).val.toNat = n := by
  rw [Char.ofNat, dif_pos h]
  rfl

/-- A byte that is the number is the number as a byte. -/
theorem eq_ofNat {b : UInt8} {n : Nat} (h : b.toNat = n) : b = UInt8.ofNat n := by
  rw [← h, UInt8.ofNat_toNat]

/-- A continuation byte is in front. -/
theorem eq_cons_of_head? {bytes : List UInt8} {b : UInt8} {n : Nat} (h : bytes.head? = some b)
    (hb : continuation? b = some n) :
    ∃ rest, bytes = b :: rest ∧ 128 ≤ b.toNat ∧ b.toNat < 192 ∧ n = b.toNat - 128 := by
  obtain ⟨rest, rfl⟩ := List.head?_eq_some_iff.mp h
  exact ⟨rest, rfl, eq_of_continuation? hb⟩

/-- The bytes that decode to a character are its bytes. -/
theorem encode_of_decode? {b : UInt8} {rest : List UInt8} {c : Char} {more : Nat}
    (h : decode? (b :: rest) = some (c, more)) :
    more ≤ rest.length ∧ String.utf8EncodeChar c = b :: rest.take more := by
  -- compared as numbers, the ranges of lead and continuation bytes are linear
  have hlt {a b : UInt8} : (a < b) = (a.toNat < b.toNat) := propext UInt8.lt_iff_toNat_lt
  have hle {a b : UInt8} : (a ≤ b) = (a.toNat ≤ b.toNat) := propext UInt8.le_iff_toNat_le
  simp only [decode?, Bool.and_eq_true, decide_eq_true_eq, hlt, hle, UInt8.reduceToNat,
    Option.bind_eq_bind, Bool.not_eq_true', Bool.and_eq_false_iff, decide_eq_false_iff_not] at h
  split_ifs at h with hone htwo hthree hfour
  · cases h
    refine ⟨Nat.zero_le _, ?_⟩
    rw [String.utf8EncodeChar, toNat_ofNat_valid (.inl (by omega)), if_pos (by omega), UInt8.ofNat_toNat]
    rfl
  · simp only [Option.bind_eq_some_iff] at h
    obtain ⟨x, ⟨b₁, hb₁, hx⟩, h⟩ := h
    obtain ⟨rest, rfl, hlow, hhigh, hx⟩ := eq_cons_of_head? hb₁ hx
    cases h
    refine ⟨Nat.succ_le_succ (Nat.zero_le _), ?_⟩
    rw [String.utf8EncodeChar, toNat_ofNat_valid (.inl (by omega)), if_neg (by omega), if_pos (by omega)]
    rw [← @eq_ofNat b _ (by omega), ← @eq_ofNat b₁ _ (by omega)]
    rfl
  · simp only [Option.bind_eq_some_iff] at h
    obtain ⟨x, ⟨b₁, hb₁, hx⟩, y, ⟨b₂, hb₂, hy⟩, h⟩ := h
    obtain ⟨rest, rfl, hlow₁, hhigh₁, hx⟩ := eq_cons_of_head? hb₁ hx
    obtain ⟨rest, rfl, hlow₂, hhigh₂, hy⟩ := eq_cons_of_head? hb₂ hy
    split_ifs at h with hscalar
    cases h
    refine ⟨Nat.succ_le_succ (Nat.succ_le_succ (Nat.zero_le _)), ?_⟩
    rw [String.utf8EncodeChar, toNat_ofNat_valid (by unfold Nat.isValidChar; omega), if_neg (by omega),
      if_neg (by omega), if_pos (by omega)]
    rw [← @eq_ofNat b _ (by omega), ← @eq_ofNat b₁ _ (by omega), ← @eq_ofNat b₂ _ (by omega)]
    rfl
  · simp only [Option.bind_eq_some_iff] at h
    obtain ⟨x, ⟨b₁, hb₁, hx⟩, y, ⟨b₂, hb₂, hy⟩, z, ⟨b₃, hb₃, hz⟩, h⟩ := h
    obtain ⟨rest, rfl, hlow₁, hhigh₁, hx⟩ := eq_cons_of_head? hb₁ hx
    obtain ⟨rest, rfl, hlow₂, hhigh₂, hy⟩ := eq_cons_of_head? hb₂ hy
    obtain ⟨rest, rfl, hlow₃, hhigh₃, hz⟩ := eq_cons_of_head? hb₃ hz
    split_ifs at h with hscalar
    cases h
    refine ⟨Nat.succ_le_succ (Nat.succ_le_succ (Nat.succ_le_succ (Nat.zero_le _))), ?_⟩
    rw [String.utf8EncodeChar, toNat_ofNat_valid (by unfold Nat.isValidChar; omega), if_neg (by omega),
      if_neg (by omega), if_neg (by omega)]
    rw [← @eq_ofNat b _ (by omega), ← @eq_ofNat b₁ _ (by omega), ← @eq_ofNat b₂ _ (by omega),
      ← @eq_ofNat b₃ _ (by omega)]
    rfl

/-- The glyphs of bytes have these bytes. -/
theorem flatMap_bytes_split (skip : Nat) (bs : List UInt8) :
    (split skip bs).flatMap bytes = bs.drop skip := by
  fun_induction split skip bs with
  | case1 => rw [List.drop_nil]; rfl
  | case2 skip b rest ih => exact ih
  | case3 b rest c more h ih =>
      rw [List.flatMap_cons, ih, bytes, (encode_of_decode? h).2, List.cons_append,
        List.take_append_drop, List.drop_zero]
  | case4 b rest h ih => rw [List.flatMap_cons, ih, List.drop_zero, List.drop_zero]; rfl

theorem flatMap_bytes_ofBytes (bs : List UInt8) : (ofBytes bs).flatMap bytes = bs :=
  flatMap_bytes_split 0 bs

/-- A byte of ASCII is the character by itself. -/
theorem ne_stray_of_mem_split {skip : Nat} {bs : List UInt8} {g : Glyph} (h : g ∈ split skip bs)
    {b : UInt8} (hb : b < 0x80) : g ≠ .stray b := by
  fun_induction split skip bs with
  | case1 => cases h
  | case2 skip b' rest ih => exact ih h
  | case3 b' rest c more hc ih =>
      rcases List.mem_cons.mp h with rfl | h
      · exact nofun
      · exact ih h
  | case4 b' rest hnone ih =>
      rcases List.mem_cons.mp h with rfl | h
      · rintro ⟨⟩
        rw [decode?, if_pos hb] at hnone
        cases hnone
      · exact ih h

/-- Only a new line has its byte. -/
theorem count_bytes {g : Glyph} (hg : g ≠ .stray 0x0A) :
    g.bytes.count 0x0A = if g.is '\n' then 1 else 0 := by
  cases g with
  | stray b =>
      have hb : b ≠ 0x0A := fun h => hg (congrArg stray h)
      rw [bytes, List.count_singleton, if_neg (by simpa using hb), if_neg (by simp [is])]
  | char c =>
      by_cases hc : c = '\n'
      · subst hc
        rfl
      · have hvalue : c.val.toNat ≠ 10 := fun h => hc (Char.ext (UInt32.toNat_inj.mp h))
        rw [if_neg (by simpa [is] using hc), List.count_eq_zero, bytes, String.utf8EncodeChar]
        split_ifs <;>
          simp only [List.mem_cons, List.not_mem_nil, or_false, ← UInt8.toNat_inj,
            UInt8.toNat_ofNat', UInt8.reduceToNat] <;>
          omega

end Mos6510.Text.Glyph

namespace Mos6510.Text

theorem toList_loop (bytes : ByteArray) (i : Nat) (done : List UInt8) :
    ByteArray.toList.loop bytes i done = done.reverse ++ bytes.data.toList.drop i := by
  fun_induction ByteArray.toList.loop bytes i done with
  | case1 i done hlt ih =>
      have hlength : i < bytes.data.toList.length := hlt
      have hget : bytes.get! i = bytes.data.toList[i] := getElem!_pos bytes.data i hlt
      rw [ih, List.drop_eq_getElem_cons hlength, hget]
      simp
  | case2 i done hge =>
      rw [List.drop_eq_nil_of_le (show bytes.data.toList.length ≤ i from Nat.not_lt.mp hge),
        List.append_nil]

/-- The bytes of a text split into its characters. -/
theorem Glyph.ofBytes_toUTF8 (s : String) : Glyph.ofBytes s.toUTF8.toList = Glyph.ofString s := by
  have hbytes : s.toUTF8.toList = s.toList.flatMap String.utf8EncodeChar := by
    rw [ByteArray.toList, toList_loop, String.toUTF8, ← String.utf8Encode_toList, List.utf8Encode,
      List.toList_data_toByteArray]
    rfl
  rw [Glyph.ofBytes, hbytes, Glyph.split_encodeAll, Glyph.ofString]

end Mos6510.Text
