import SkinMarkup.Text.Basic

/-!
# The bytes of a text

Offsets count bytes of the UTF-8 form. Here that form is written out. In it the byte of
a line feed stands for a line feed and is no part of another character
(`lineFeed_mem_utf8EncodeChar_iff`).
-/

namespace SkinMarkup

/-- The UTF-8 form of a text. -/
def bytes (t : Text) : List UInt8 :=
  t.flatMap String.utf8EncodeChar

/-- The line feed as a byte. -/
def lineFeed : UInt8 :=
  0x0A

@[simp]
theorem bytes_nil : bytes [] = [] := rfl

@[simp]
theorem bytes_cons (c : Char) (cs : Text) : bytes (c :: cs) = String.utf8EncodeChar c ++ bytes cs := rfl

/-- All bytes of a character outside of ASCII have their highest bit set. -/
theorem le_of_mem_utf8EncodeChar {c : Char} {b : UInt8} (hc : 127 < c.val.toNat)
    (h : b ∈ String.utf8EncodeChar c) : 128 ≤ b.toNat := by
  have hbyte {n : Nat} (hn : 128 ≤ n ∧ n < 256) (hb : b = UInt8.ofNat n) : 128 ≤ b.toNat := by
    rw [hb, UInt8.toNat_ofNat_of_lt' hn.2]
    exact hn.1
  rw [String.utf8EncodeChar.eq_def] at h
  dsimp only at h
  split at h
  · next hle => exact absurd hle (Nat.not_le_of_lt hc)
  · split at h
    · simp only [List.mem_cons, List.not_mem_nil, or_false] at h
      rcases h with h | h
      · exact hbyte (by omega) h
      · exact hbyte (by omega) h
    · split at h
      · simp only [List.mem_cons, List.not_mem_nil, or_false] at h
        rcases h with h | h | h
        · exact hbyte (by omega) h
        · exact hbyte (by omega) h
        · exact hbyte (by omega) h
      · simp only [List.mem_cons, List.not_mem_nil, or_false] at h
        rcases h with h | h | h | h
        · exact hbyte (by omega) h
        · exact hbyte (by omega) h
        · exact hbyte (by omega) h
        · exact hbyte (by omega) h

theorem lineFeed_mem_utf8EncodeChar_iff {c : Char} :
    lineFeed ∈ String.utf8EncodeChar c ↔ c = '\n' := by
  constructor
  · intro h
    have hc : c.val.toNat ≤ 127 := by
      refine Nat.le_of_not_lt fun hlarge => ?_
      have hhigh : 128 ≤ 10 := le_of_mem_utf8EncodeChar hlarge h
      omega
    rw [String.utf8EncodeChar.eq_def] at h
    dsimp only at h
    rw [if_pos hc, List.mem_singleton] at h
    have htoNat := congrArg UInt8.toNat h
    rw [UInt8.toNat_ofNat_of_lt' (Nat.lt_of_le_of_lt hc (by decide))] at htoNat
    exact Char.ext (UInt32.toNat_inj.mp htoNat.symm)
  · rintro rfl
    decide

end SkinMarkup
