import Mathlib.Data.List.Basic

/-!
# UTF-8 texts

A text is a list of characters, `utf8` its bytes. `decodeChar?` reads the character a
list of bytes begins with (`decodeChar?_eq_some_iff`). There is at most one, so
`readable` gets a text back from its bytes (`readable_utf8`).

`readable` takes any bytes, with a question mark for a byte that begins no character.
A byte below 128 is always a character of its own: what is in front of it can be read
apart (`readable_append`).
-/

namespace Microchain.Lib

/-- The bytes of a text. -/
def utf8 (text : List Char) : List UInt8 := text.flatMap String.utf8EncodeChar

@[simp] theorem utf8_nil : utf8 [] = [] := rfl

@[simp] theorem utf8_cons (c : Char) (text : List Char) :
    utf8 (c :: text) = String.utf8EncodeChar c ++ utf8 text := rfl

@[simp] theorem utf8_append (s t : List Char) : utf8 (s ++ t) = utf8 s ++ utf8 t :=
  List.flatMap_append

/-! ## The bytes of a character -/

theorem utf8EncodeChar_ne_nil (c : Char) : String.utf8EncodeChar c ≠ [] := by
  intro h
  have hlength := congrArg List.length h
  rw [String.length_utf8EncodeChar] at hlength
  exact absurd hlength (Nat.ne_of_gt c.utf8Size_pos)

/-- A character below 128 is one byte. -/
theorem utf8EncodeChar_ascii {c : Char} (h : c.val < 128) :
    String.utf8EncodeChar c = [c.val.toUInt8] := by
  have hle : c.val.toNat ≤ 127 := Nat.le_of_lt_succ h
  rw [String.utf8EncodeChar]
  simp only [hle, if_true]
  rfl

/-- Every byte of another character is above. -/
theorem le_of_mem_utf8EncodeChar {c : Char} {b : UInt8} (h : ¬ c.val < 128)
    (hb : b ∈ String.utf8EncodeChar c) : 128 ≤ b := by
  have hlt : ¬ c.val.toNat ≤ 127 := fun hle => h (Nat.lt_succ_of_le hle)
  rw [String.utf8EncodeChar] at hb
  simp only [hlt, if_false] at hb
  split at hb
  · simp only [List.mem_cons, List.not_mem_nil, or_false] at hb
    rcases hb with rfl | rfl <;>
      exact UInt8.le_iff_toNat_le.mpr (by rw [UInt8.toNat_ofNat']; show 128 ≤ _; omega)
  · split at hb
    · simp only [List.mem_cons, List.not_mem_nil, or_false] at hb
      rcases hb with rfl | rfl | rfl <;>
        exact UInt8.le_iff_toNat_le.mpr (by rw [UInt8.toNat_ofNat']; show 128 ≤ _; omega)
    · simp only [List.mem_cons, List.not_mem_nil, or_false] at hb
      rcases hb with rfl | rfl | rfl | rfl <;>
        exact UInt8.le_iff_toNat_le.mpr (by rw [UInt8.toNat_ofNat']; show 128 ≤ _; omega)

/-- A byte below 128 in a character is the character. -/
theorem eq_of_mem_utf8EncodeChar {c : Char} {b : UInt8} (hb : b ∈ String.utf8EncodeChar c)
    (h : b < 128) : String.utf8EncodeChar c = [b] := by
  by_cases hc : c.val < 128
  · rw [utf8EncodeChar_ascii hc] at hb ⊢
    rw [List.mem_singleton.mp hb]
  · exact absurd (le_of_mem_utf8EncodeChar hc hb) (UInt8.not_le.mpr h)

/-! ## Decoding -/

/-- The character some bytes begin with. -/
def decodeChar? (bytes : List UInt8) : Option Char := bytes.toByteArray.utf8DecodeChar? 0

theorem decodeChar?_utf8EncodeChar (c : Char) (bytes : List UInt8) :
    decodeChar? (String.utf8EncodeChar c ++ bytes) = some c := by
  rw [decodeChar?, List.toByteArray_append]
  exact ByteArray.utf8DecodeChar?_utf8EncodeChar_append

/-- **Bytes begin with one character at most.** -/
theorem decodeChar?_eq_some_iff {bytes : List UInt8} {c : Char} :
    decodeChar? bytes = some c ↔ ∃ rest, bytes = String.utf8EncodeChar c ++ rest := by
  constructor
  · intro h
    obtain ⟨rest, hrest⟩ := ByteArray.exists_of_utf8DecodeChar?_eq_some h
    refine ⟨rest.data.toList, ?_⟩
    have hdata := congrArg (fun b : ByteArray => b.data.toList) hrest
    simpa using hdata
  · rintro ⟨rest, rfl⟩
    exact decodeChar?_utf8EncodeChar c rest

/-- A character has four bytes at most. -/
theorem decodeChar?_take (bytes : List UInt8) : decodeChar? (bytes.take 4) = decodeChar? bytes := by
  refine Option.ext fun c => ?_
  have hlength : (String.utf8EncodeChar c).length ≤ 4 := by
    rw [String.length_utf8EncodeChar]
    exact c.utf8Size_le_four
  rw [decodeChar?_eq_some_iff, decodeChar?_eq_some_iff]
  constructor
  · rintro ⟨rest, hrest⟩
    exact ⟨rest ++ bytes.drop 4, by rw [← List.append_assoc, ← hrest, List.take_append_drop]⟩
  · rintro ⟨rest, rfl⟩
    exact ⟨rest.take (4 - (String.utf8EncodeChar c).length),
      by rw [List.take_append, List.take_of_length_le hlength]⟩

/-- The text of some bytes, `?` for a byte that begins no character. -/
def readable : List UInt8 → List Char
  | [] => []
  | b :: bytes =>
    match decodeChar? (b :: bytes) with
    | some c => c :: readable (bytes.drop (c.utf8Size - 1))
    | none => '?' :: readable bytes
termination_by bytes => bytes.length
decreasing_by
  all_goals simp only [List.length_drop, List.length_cons]; omega

@[simp] theorem readable_nil : readable [] = [] := by rw [readable]

theorem readable_utf8EncodeChar (c : Char) (bytes : List UInt8) :
    readable (String.utf8EncodeChar c ++ bytes) = c :: readable bytes := by
  have hdecode := decodeChar?_utf8EncodeChar c bytes
  have hlength := String.length_utf8EncodeChar c
  cases hc : String.utf8EncodeChar c with
  | nil => exact absurd hc (utf8EncodeChar_ne_nil c)
  | cons b bs =>
    rw [hc, List.cons_append] at hdecode
    rw [hc, List.length_cons] at hlength
    rw [List.cons_append, readable, hdecode]
    show c :: readable ((bs ++ bytes).drop (c.utf8Size - 1)) = c :: readable bytes
    rw [← hlength, Nat.add_sub_cancel, List.drop_left]

theorem readable_none {b : UInt8} {bytes : List UInt8} (h : decodeChar? (b :: bytes) = none) :
    readable (b :: bytes) = '?' :: readable bytes := by
  rw [readable, h]

/-- **A text is known from its bytes.** -/
theorem readable_utf8 (text : List Char) : readable (utf8 text) = text := by
  induction text with
  | nil => exact readable_nil
  | cons c text ih => rw [utf8_cons, readable_utf8EncodeChar, ih]

/-- Induction over bytes by what they begin with. -/
theorem bytes_induction {P : List UInt8 → Prop} (nil : P [])
    (char : ∀ c bytes, P bytes → P (String.utf8EncodeChar c ++ bytes))
    (other : ∀ b bytes, decodeChar? (b :: bytes) = none → P bytes → P (b :: bytes))
    (bytes : List UInt8) : P bytes := by
  fun_induction readable bytes with
  | case1 => exact nil
  | case2 b bytes c hdecode ih =>
    obtain ⟨rest, hrest⟩ := decodeChar?_eq_some_iff.mp hdecode
    have hlength := String.length_utf8EncodeChar c
    cases hc : String.utf8EncodeChar c with
    | nil => exact absurd hc (utf8EncodeChar_ne_nil c)
    | cons b' bs =>
      rw [hc, List.cons_append] at hrest
      obtain ⟨rfl, rfl⟩ := List.cons.inj hrest
      rw [hc, List.length_cons] at hlength
      rw [← hlength, Nat.add_sub_cancel, List.drop_left] at ih
      rw [← List.cons_append, ← hc]
      exact char c rest ih
  | case3 b bytes hdecode ih => exact other b bytes hdecode ih

/-- In front of a byte below 128, a character ends. -/
theorem decodeChar?_append {b : UInt8} (hb : b < 128) (a : UInt8) (bytes rest : List UInt8) :
    decodeChar? (a :: bytes ++ b :: rest) = decodeChar? (a :: bytes) := by
  refine Option.ext fun c => ?_
  rw [decodeChar?_eq_some_iff, decodeChar?_eq_some_iff]
  constructor
  · rintro ⟨tail, htail⟩
    rcases List.append_eq_append_iff.mp htail with ⟨mid, hc, hrest⟩ | ⟨mid, hbytes, -⟩
    · cases mid with
      | nil =>
        rw [List.append_nil] at hc
        exact ⟨[], by rw [hc, List.append_nil]⟩
      | cons b' mid =>
        -- the character would hold the byte and one in front of it
        obtain ⟨rfl, -⟩ := List.cons.inj hrest
        have hmem : b ∈ String.utf8EncodeChar c := by rw [hc]; simp
        rw [eq_of_mem_utf8EncodeChar hmem hb] at hc
        simp at hc
    · exact ⟨mid, hbytes⟩
  · rintro ⟨tail, htail⟩
    exact ⟨tail ++ b :: rest, by rw [htail, List.append_assoc]⟩

/-- What is in front of a byte below 128 can be read apart. -/
theorem readable_append {b : UInt8} (hb : b < 128) (bytes rest : List UInt8) :
    readable (bytes ++ b :: rest) = readable bytes ++ readable (b :: rest) := by
  induction bytes using bytes_induction with
  | nil => simp
  | char c bytes ih =>
    rw [List.append_assoc, readable_utf8EncodeChar, readable_utf8EncodeChar, ih, List.cons_append]
  | other a bytes h ih =>
    have h' := decodeChar?_append hb a bytes rest
    rw [h, List.cons_append] at h'
    rw [List.cons_append, readable_none h', readable_none h, ih, List.cons_append]

/-! ## Texts of bytes below 128 -/

/-- The character of a byte below 128. -/
def charOfByte (b : UInt8) : Char := Char.ofNat b.toNat

theorem utf8EncodeChar_charOfByte {b : UInt8} (h : b < 128) :
    String.utf8EncodeChar (charOfByte b) = [b] := by
  have hcases : ∀ n : Fin 128,
      String.utf8EncodeChar (charOfByte (UInt8.ofNat n)) = [UInt8.ofNat n] := by decide +kernel
  have hlt : b.toNat < 128 := h
  simpa using hcases ⟨b.toNat, hlt⟩

theorem charOfByte_toUInt8 {c : Char} (h : c.val < 128) : charOfByte c.val.toUInt8 = c := by
  have hmod : c.toNat % 256 = c.toNat := Nat.mod_eq_of_lt (Nat.lt_trans h (by decide))
  rw [charOfByte, UInt32.toNat_toUInt8]
  show Char.ofNat (c.toNat % 256) = c
  rw [hmod, Char.ofNat_toNat]

theorem utf8_map_charOfByte {bytes : List UInt8} (h : ∀ b ∈ bytes, b < 128) :
    utf8 (bytes.map charOfByte) = bytes := by
  induction bytes with
  | nil => rfl
  | cons b bytes ih =>
    rw [List.map_cons, utf8_cons, utf8EncodeChar_charOfByte (h b List.mem_cons_self),
      ih fun b hb => h b (List.mem_cons_of_mem _ hb)]
    rfl

/-- A byte below 128 is read as its character. -/
theorem readable_cons {b : UInt8} (h : b < 128) (bytes : List UInt8) :
    readable (b :: bytes) = charOfByte b :: readable bytes := by
  have hread := readable_utf8EncodeChar (charOfByte b) bytes
  rwa [utf8EncodeChar_charOfByte h] at hread

end Microchain.Lib
