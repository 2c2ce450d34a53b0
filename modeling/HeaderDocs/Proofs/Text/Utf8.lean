import HeaderDocs.Text.Utf8

/-!
# Texts are decoded as they were encoded

Each character is encoded as one unit, whatever bytes follow it.

* `readUnit_encode`: a character that was encoded is read as one unit.
* `decode?_encode`: a text that was encoded is decoded.
-/
namespace HeaderDocs.Text.Utf8

/-- A byte within its range contributes its lower six bits. -/
theorem readTail_cons {low high d : Nat} (hd : d < 64) (hlow : low ≤ d + 0x80)
    (hhigh : d + 0x80 ≤ high) (value : Nat) (ranges : List (Nat × Nat)) (bytes : List UInt8) :
    readTail value ((low, high) :: ranges) (UInt8.ofNat (d + 0x80) :: bytes) =
      ((readTail (value * 64 + d) ranges bytes).1, (readTail (value * 64 + d) ranges bytes).2 + 1) := by
  have hbyte : (UInt8.ofNat (d + 0x80)).toNat = d + 0x80 := by
    rw [UInt8.toNat_ofNat']
    omega
  rw [readTail, hbyte, if_pos (by simp [hlow, hhigh]), Nat.add_sub_cancel]

theorem tailOf?_two {b : Nat} (hlow : 0xC2 ≤ b) (hhigh : b ≤ 0xDF) :
    tailOf? b = some (b - 0xC0, [(0x80, 0xBF)]) := by
  unfold tailOf?
  rw [if_neg (by omega), if_pos (by simp [hlow, hhigh])]

/-- The first byte of three restricts the second one, where overlong forms and surrogates would
follow. -/
theorem tailOf?_three {b : Nat} (hlow : 0xE0 ≤ b) (hhigh : b ≤ 0xEF) :
    tailOf? b = some (b - 0xE0, [(if b = 0xE0 then 0xA0 else 0x80, if b = 0xED then 0x9F else 0xBF),
      (0x80, 0xBF)]) := by
  unfold tailOf?
  rw [if_neg (by omega), if_neg (by simp; omega)]
  by_cases h : b = 0xE0
  · subst h
    rfl
  by_cases h' : b = 0xED
  · subst h'
    rfl
  rw [if_neg (by simp [h]), if_neg (by simp [h']), if_pos (by simp; omega), if_neg h, if_neg h']

/-- The first byte of four restricts the second one, where overlong forms and numbers beyond U+10FFFF
would follow. -/
theorem tailOf?_four {b : Nat} (hlow : 0xF0 ≤ b) (hhigh : b ≤ 0xF4) :
    tailOf? b = some (b - 0xF0, [(if b = 0xF0 then 0x90 else 0x80, if b = 0xF4 then 0x8F else 0xBF),
      (0x80, 0xBF), (0x80, 0xBF)]) := by
  obtain rfl | rfl | rfl | rfl | rfl : b = 0xF0 ∨ b = 0xF1 ∨ b = 0xF2 ∨ b = 0xF3 ∨ b = 0xF4 := by
    omega
  all_goals rfl

/-- Numbers of characters leave out the surrogates and end at U+10FFFF. -/
theorem toNat_valid (c : Char) : c.toNat < 0xD800 ∨ 0xDFFF < c.toNat ∧ c.toNat < 0x110000 := by
  have := c.valid
  simpa [UInt32.isValidChar, Nat.isValidChar] using this

/-- A character that was encoded is read as one unit, whatever follows. -/
theorem readUnit_encode (c : Char) (rest : List UInt8) :
    ∃ b bytes, String.utf8EncodeChar c = b :: bytes ∧
      readUnit b (bytes ++ rest) = (some c, bytes.length) := by
  have hvalid := toNat_valid c
  have hchar : Char.ofNat c.toNat = c := Char.ofNat_toNat c
  have hval : c.val.toNat = c.toNat := rfl
  have hbyte : ∀ n < 256, (UInt8.ofNat n).toNat = n := by
    intro n hn
    rw [UInt8.toNat_ofNat']
    omega
  unfold String.utf8EncodeChar
  rw [hval]
  dsimp only
  split
  · rename_i h
    refine ⟨_, _, rfl, ?_⟩
    have htail : tailOf? c.toNat = some (c.toNat, []) := by
      unfold tailOf?
      rw [if_pos (by omega)]
    unfold readUnit
    rw [hbyte _ (by omega), htail]
    simp [readTail, hchar]
  split
  · rename_i h
    refine ⟨_, _, rfl, ?_⟩
    unfold readUnit
    rw [hbyte _ (by omega), tailOf?_two (by omega) (by omega)]
    simp only [List.cons_append, List.nil_append]
    rw [readTail_cons (by omega) (by omega) (by omega)]
    simp only [readTail, Option.map_some, List.length_cons, List.length_nil]
    rw [show (c.toNat / 64 % 32 + 192 - 192) * 64 + c.toNat % 64 = c.toNat by omega, hchar]
  split
  · rename_i h
    refine ⟨_, _, rfl, ?_⟩
    unfold readUnit
    rw [hbyte _ (by omega), tailOf?_three (by omega) (by omega)]
    simp only [List.cons_append, List.nil_append]
    rw [readTail_cons (by omega) (by split <;> omega) (by split <;> omega),
      readTail_cons (by omega) (by omega) (by omega)]
    simp only [readTail, Option.map_some, List.length_cons, List.length_nil]
    rw [show ((c.toNat / 4096 % 16 + 224 - 224) * 64 + c.toNat / 64 % 64) * 64 + c.toNat % 64 =
      c.toNat by omega, hchar]
  · refine ⟨_, _, rfl, ?_⟩
    unfold readUnit
    rw [hbyte _ (by omega), tailOf?_four (by omega) (by omega)]
    simp only [List.cons_append, List.nil_append]
    rw [readTail_cons (by omega) (by split <;> omega) (by split <;> omega),
      readTail_cons (by omega) (by omega) (by omega), readTail_cons (by omega) (by omega) (by omega)]
    simp only [readTail, Option.map_some, List.length_cons, List.length_nil]
    rw [show (((c.toNat / 262144 % 8 + 240 - 240) * 64 + c.toNat / 4096 % 64) * 64 +
      c.toNat / 64 % 64) * 64 + c.toNat % 64 = c.toNat by omega, hchar]

/-- The bytes that belong to the unit before are passed over. -/
theorem unitsFrom_append (bytes rest : List UInt8) :
    unitsFrom bytes.length (bytes ++ rest) = unitsFrom 0 rest := by
  induction bytes with
  | nil => rfl
  | cons b bytes ih => exact ih

theorem units_encode (cs : List Char) : units (encode cs) = cs.map some := by
  induction cs with
  | nil => rfl
  | cons c cs ih =>
    obtain ⟨b, bytes, hbytes, hunit⟩ := readUnit_encode c (encode cs)
    have hencode : encode (c :: cs) = b :: (bytes ++ encode cs) := by
      rw [encode, List.flatMap_cons, hbytes]
      rfl
    rw [units, hencode, unitsFrom, hunit]
    dsimp only
    rw [unitsFrom_append, ← units, ih, List.map_cons]

/-- A text that was encoded is decoded as it was. -/
theorem decode?_encode (cs : List Char) : decode? (encode cs) = some cs := by
  rw [decode?, units_encode]
  induction cs with
  | nil => rfl
  | cons c cs ih => rw [List.map_cons, allChars?, ih, Option.map_some]

theorem encode_injective {cs ds : List Char} (h : encode cs = encode ds) : cs = ds := by
  have := decode?_encode cs
  rw [h, decode?_encode ds] at this
  exact (Option.some.inj this).symm

end HeaderDocs.Text.Utf8
