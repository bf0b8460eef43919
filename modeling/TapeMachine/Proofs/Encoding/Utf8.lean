import TapeMachine.Encoding.Utf8

/-! Text in UTF-8 and back.

The bytes of a character are its lead byte and its continuations, and decoding takes just
these for a character, whatever comes after them (`decodeOne_encodeChar`). So what was
encoded is decoded again (`decode_encode`). -/
namespace TapeMachine.Utf8

variable {n k value length : Nat} {low high b : UInt8} {c : Char} {rest : Bytes}

/-! ### Single bytes -/

/-- A byte that goes on with a character, with six bits of the code point. -/
def continuation (k : Nat) : UInt8 := (0x80 + k % 64).toUInt8

theorem toNat_toUInt8 (h : n < 256) : n.toUInt8.toNat = n := Nat.mod_eq_of_lt h

theorem toNat_continuation (k : Nat) : (continuation k).toNat = 0x80 + k % 64 :=
  toNat_toUInt8 (by omega)

theorem follow_continuation (hlow : low.toNat ≤ 0x80 + k % 64)
    (hhigh : 0x80 + k % 64 ≤ high.toNat) :
    follow (n + 1) low high value length (continuation k :: rest) =
      follow n 0x80 0xbf (64 * value + k % 64) (length + 1) rest := by
  have hle : low ≤ continuation k := UInt8.le_iff_toNat_le.mpr (by rwa [toNat_continuation])
  have hge : continuation k ≤ high := UInt8.le_iff_toNat_le.mpr (by rwa [toNat_continuation])
  rw [follow, if_pos ⟨hle, hge⟩, toNat_continuation, Nat.add_sub_cancel_left]

/-- After the second byte any continuation will do. -/
theorem follow_next : follow (n + 1) 0x80 0xbf value length (continuation k :: rest) =
    follow n 0x80 0xbf (64 * value + k % 64) (length + 1) rest := by
  have hlow : (0x80 : UInt8).toNat = 128 := rfl
  have hhigh : (0xbf : UInt8).toNat = 191 := rfl
  exact follow_continuation (by omega) (by omega)

theorem follow_end : follow 0 low high value length rest = .ok (Char.ofNat value, length, rest) :=
  rfl

theorem lead?_of_lt (h : n < 0x80) : lead? n.toUInt8 = some ⟨n, 0, 0x80, 0xbf⟩ := by
  have hn := toNat_toUInt8 (show n < 256 by omega)
  have hlt : n.toUInt8 < 0x80 := UInt8.lt_iff_toNat_lt.mpr (by rwa [hn])
  rw [lead?, if_pos hlt, hn]

theorem lead?_two (h : 2 ≤ k) (hk : k < 32) :
    lead? (0xc0 + k).toUInt8 = some ⟨k, 1, 0x80, 0xbf⟩ := by
  have hn := toNat_toUInt8 (show 0xc0 + k < 256 by omega)
  simp only [lead?, UInt8.lt_iff_toNat_lt, hn]
  simp [show ¬ 192 + k < 128 by omega, show ¬ 192 + k < 194 by omega, show 192 + k < 224 by omega]

theorem lead?_three (hk : k < 16) : lead? (0xe0 + k).toUInt8 =
    some ⟨k, 2, if k = 0 then 0xa0 else 0x80, if k = 13 then 0x9f else 0xbf⟩ := by
  have hn := toNat_toUInt8 (show 0xe0 + k < 256 by omega)
  simp only [lead?, UInt8.lt_iff_toNat_lt, ← UInt8.toNat_inj, hn]
  simp [show ¬ 224 + k < 128 by omega, show ¬ 224 + k < 194 by omega, show ¬ 224 + k < 224 by omega,
    show 224 + k < 240 by omega, show 224 + k = 237 ↔ k = 13 by omega]

theorem lead?_four (hk : k < 5) : lead? (0xf0 + k).toUInt8 =
    some ⟨k, 3, if k = 0 then 0x90 else 0x80, if k = 4 then 0x8f else 0xbf⟩ := by
  have hn := toNat_toUInt8 (show 0xf0 + k < 256 by omega)
  simp only [lead?, UInt8.lt_iff_toNat_lt, ← UInt8.toNat_inj, hn]
  simp [show ¬ 240 + k < 128 by omega, show ¬ 240 + k < 194 by omega, show ¬ 240 + k < 224 by omega,
    show ¬ 240 + k < 240 by omega, show 240 + k < 245 by omega, show 240 + k = 244 ↔ k = 4 by omega]

/-! ### Characters -/

/-- The lead byte of a character and what it begins with. -/
theorem encodeChar_eq (c : Char) : encodeChar c =
    if c.toNat < 0x80 then [c.toNat.toUInt8]
    else if c.toNat < 0x800 then [(0xc0 + c.toNat / 64).toUInt8, continuation c.toNat]
    else if c.toNat < 0x10000 then
      [(0xe0 + c.toNat / 4096).toUInt8, continuation (c.toNat / 64), continuation c.toNat]
    else
      [(0xf0 + c.toNat / 262144).toUInt8, continuation (c.toNat / 4096),
        continuation (c.toNat / 64), continuation c.toNat] := rfl

/-- No character has the code point of a surrogate, or one beyond the last. -/
theorem toNat_valid (c : Char) : c.toNat < 0xd800 ∨ 0xdfff < c.toNat ∧ c.toNat < 0x110000 :=
  c.valid

/-- Decoding takes the bytes of a character and no more. -/
theorem decodeOne_encodeChar (c : Char) : ∃ b more, encodeChar c = b :: more ∧
    ∀ rest, decodeOne b (more ++ rest) = .ok (c, (encodeChar c).length, rest) := by
  have hvalid := toNat_valid c
  have hc : Char.ofNat c.toNat = c := Char.ofNat_toNat c
  rw [encodeChar_eq]
  generalize c.toNat = n at *
  split
  · refine ⟨_, _, rfl, fun rest => ?_⟩
    rw [decodeOne, lead?_of_lt ‹_›]
    exact congrArg (fun c => Except.ok (c, 1, rest)) hc
  split
  · refine ⟨_, _, rfl, fun rest => ?_⟩
    rw [decodeOne, lead?_two (by omega) (by omega)]
    simp only [List.cons_append, List.nil_append, follow_next, follow_end]
    rw [show 64 * (n / 64) + n % 64 = n by omega, hc]
    rfl
  split
  · refine ⟨_, _, rfl, fun rest => ?_⟩
    rw [decodeOne, lead?_three (by omega)]
    simp only [List.cons_append, List.nil_append]
    rw [follow_continuation, follow_next, follow_end]
    · rw [show 64 * (64 * (n / 4096) + n / 64 % 64) + n % 64 = n by omega, hc]
      rfl
    · split
      · show 0xa0 ≤ _
        omega
      · show 0x80 ≤ _
        omega
    · split
      · show _ ≤ 0x9f
        omega
      · show _ ≤ 0xbf
        omega
  · refine ⟨_, _, rfl, fun rest => ?_⟩
    rw [decodeOne, lead?_four (by omega)]
    simp only [List.cons_append, List.nil_append]
    rw [follow_continuation, follow_next, follow_next, follow_end]
    · rw [show 64 * (64 * (64 * (n / 262144) + n / 4096 % 64) + n / 64 % 64) + n % 64 = n by omega,
        hc]
      rfl
    · split
      · show 0x90 ≤ _
        omega
      · show 0x80 ≤ _
        omega
    · split
      · show _ ≤ 0x8f
        omega
      · show _ ≤ 0xbf
        omega

/-! ### Texts -/

theorem length_le_encode (t : Text) : t.length ≤ (encode t).length := by
  induction t with
  | nil => exact Nat.le_refl 0
  | cons c t ih =>
    obtain ⟨b, more, hb, -⟩ := decodeOne_encodeChar c
    rw [encode, List.flatMap_cons, hb, List.length_append, List.length_cons, List.length_cons]
    have hrest : t.length ≤ (t.flatMap encodeChar).length := ih
    omega

theorem decodeFrom_encode {t : Text} {n : Nat} (h : t.length ≤ n) (start : Nat) (done : Text) :
    decodeFrom n start done (encode t) = .ok (done.reverse ++ t) := by
  induction t generalizing n start done with
  | nil => cases n <;> simp [encode, decodeFrom]
  | cons c t ih =>
    obtain ⟨n, rfl⟩ : ∃ m, n = m + 1 := Nat.exists_eq_add_one.mpr (Nat.lt_of_lt_of_le (by simp) h)
    obtain ⟨b, more, hb, hone⟩ := decodeOne_encodeChar c
    have hencode : encode (c :: t) = b :: (more ++ encode t) := by
      rw [encode, List.flatMap_cons, hb]
      rfl
    rw [hencode, decodeFrom, hone]
    simp only
    rw [ih (Nat.le_of_succ_le_succ h), List.reverse_cons, List.append_assoc]
    rfl

/-- What was encoded is decoded again. -/
theorem decode_encode (t : Text) : decode (encode t) = .ok t :=
  decodeFrom_encode (length_le_encode t) 0 []

end TapeMachine.Utf8
