import Mathlib
import LicenseAudit.Text.Utf8

/-!
# Reading text back from its bytes

The reader of file names accepts any bytes, so what it makes of them says little in general. On
the bytes of a text it is exact: `Utf8.read_write` says that every text is read back from its
bytes.

The proof goes character by character. A character of one byte is a lead by itself. For the longer
ones the bits of `Begun` are followed through the continuation bytes; the restriction on the second
byte is met because the code point is at least the least one of its length, no surrogate, and at
most the last one.

Of other bytes one thing can be said: a character of a single byte is read only where that byte
stands (`mem_of_mem_readFrom`), for what has begun never comes to one (`Begun.Long`).
-/

set_option autoImplicit false

namespace LicenseAudit

namespace Utf8

theorem readFrom_continuation {b : Begun} {n : Nat} (hn : n < 64) (hl : b.least ≤ n + 0x80)
    (hg : n + 0x80 ≤ b.greatest) (rest : List UInt8) :
    readFrom (some b) (UInt8.ofNat (n + 0x80) :: rest) =
      match b.further with
      | 0 => Char.ofNat (b.bits * 64 + n) :: readFrom none rest
      | k + 1 => readFrom (some ⟨b.bits * 64 + n, k, 0x80, 0xBF⟩) rest := by
  have hb : (UInt8.ofNat (n + 0x80)).toNat = n + 0x80 := by
    rw [UInt8.toNat_ofNat']
    omega
  have hrange : b.least ≤ n + 0x80 ∧ n + 0x80 ≤ b.greatest := ⟨hl, hg⟩
  cases hf : b.further with
  | zero => simp only [readFrom, hb, if_pos hrange, hf, Nat.add_sub_cancel]
  | succ k => simp only [readFrom, hb, if_pos hrange, hf, Nat.add_sub_cancel]

theorem readFrom_whole {n : Nat} (hn : n < 0x80) (rest : List UInt8) :
    readFrom none (UInt8.ofNat n :: rest) = Char.ofNat n :: readFrom none rest := by
  have hb : (UInt8.ofNat n).toNat = n := by
    rw [UInt8.toNat_ofNat']
    omega
  have hlead : Lead.ofByte (UInt8.ofNat n) = .whole (Char.ofNat n) := by
    simp only [Lead.ofByte, hb, if_pos hn]
  rw [readFrom, hlead]

theorem readFrom_begun {byte : UInt8} {b : Begun} (h : Lead.ofByte byte = .begun b)
    (rest : List UInt8) : readFrom none (byte :: rest) = readFrom (some b) rest := by
  rw [readFrom, h]

theorem lead_two {n : Nat} (hl : 2 ≤ n) (hg : n < 32) :
    Lead.ofByte (UInt8.ofNat (n + 0xC0)) = .begun ⟨n, 0, 0x80, 0xBF⟩ := by
  have hb : (UInt8.ofNat (n + 0xC0)).toNat = n + 0xC0 := by
    rw [UInt8.toNat_ofNat']
    omega
  simp only [Lead.ofByte, hb]
  rw [if_neg (by omega), if_neg (by omega), if_pos (by omega), Nat.add_sub_cancel]

theorem lead_three {n : Nat} (hg : n < 16) :
    Lead.ofByte (UInt8.ofNat (n + 0xE0)) =
      .begun ⟨n, 1, if n = 0 then 0xA0 else 0x80, if n = 13 then 0x9F else 0xBF⟩ := by
  have hb : (UInt8.ofNat (n + 0xE0)).toNat = n + 0xE0 := by
    rw [UInt8.toNat_ofNat']
    omega
  simp only [Lead.ofByte, hb]
  rw [if_neg (by omega), if_neg (by omega), if_neg (by omega), if_pos (by omega),
    Nat.add_sub_cancel]
  have h0 : n + 0xE0 = 0xE0 ↔ n = 0 := by omega
  have hD : n + 0xE0 = 0xED ↔ n = 13 := by omega
  simp only [h0, hD]

theorem lead_four {n : Nat} (hg : n < 5) :
    Lead.ofByte (UInt8.ofNat (n + 0xF0)) =
      .begun ⟨n, 2, if n = 0 then 0x90 else 0x80, if n = 4 then 0x8F else 0xBF⟩ := by
  have hb : (UInt8.ofNat (n + 0xF0)).toNat = n + 0xF0 := by
    rw [UInt8.toNat_ofNat']
    omega
  simp only [Lead.ofByte, hb]
  rw [if_neg (by omega), if_neg (by omega), if_neg (by omega), if_neg (by omega),
    if_pos (by omega), Nat.add_sub_cancel]
  have h0 : n + 0xF0 = 0xF0 ↔ n = 0 := by omega
  have h4 : n + 0xF0 = 0xF4 ↔ n = 4 := by omega
  simp only [h0, h4]

theorem readFrom_char (c : Char) (rest : List UInt8) :
    readFrom none (String.utf8EncodeChar c ++ rest) = c :: readFrom none rest := by
  have hc : Char.ofNat c.val.toNat = c := Char.ofNat_toNat c
  have hvalid : c.val.toNat < 0xD800 ∨ 0xDFFF < c.val.toNat ∧ c.val.toNat < 0x110000 := c.valid
  generalize hv : c.val.toNat = v at hc hvalid
  simp only [String.utf8EncodeChar, hv]
  by_cases h1 : v ≤ 0x7F
  · rw [if_pos h1, List.singleton_append, readFrom_whole (by omega), hc]
  by_cases h2 : v ≤ 0x7FF
  · rw [if_neg h1, if_pos h2, List.cons_append, List.singleton_append,
      readFrom_begun (lead_two (by omega) (by omega)),
      readFrom_continuation (by omega) (by simp only; omega) (by simp only; omega)]
    have hbits : v / 64 % 0x20 * 64 + v % 0x40 = v := by omega
    simp only [hbits, hc]
  by_cases h3 : v ≤ 0xFFFF
  · rw [if_neg h1, if_neg h2, if_pos h3, List.cons_append, List.cons_append, List.singleton_append,
      readFrom_begun (lead_three (by omega)),
      readFrom_continuation (by omega) (by simp only; split <;> omega)
        (by simp only; split <;> omega)]
    simp only
    rw [readFrom_continuation (by omega) (by simp only; omega) (by simp only; omega)]
    have hbits : (v / 4096 % 0x10 * 64 + v / 64 % 0x40) * 64 + v % 0x40 = v := by omega
    simp only [hbits, hc]
  · rw [if_neg h1, if_neg h2, if_neg h3, List.cons_append, List.cons_append, List.cons_append,
      List.singleton_append, readFrom_begun (lead_four (by omega)),
      readFrom_continuation (by omega) (by simp only; split <;> omega)
        (by simp only; split <;> omega)]
    simp only
    rw [readFrom_continuation (by omega) (by simp only; omega) (by simp only; omega)]
    simp only
    rw [readFrom_continuation (by omega) (by simp only; omega) (by simp only; omega)]
    have hbits : ((v / 262144 % 8 * 64 + v / 4096 % 0x40) * 64 + v / 64 % 0x40) * 64 + v % 0x40 =
        v := by omega
    simp only [hbits, hc]

theorem readFrom_chars (cs : List Char) :
    readFrom none (cs.flatMap String.utf8EncodeChar) = cs := by
  induction cs with
  | nil => rfl
  | cons c cs ih => rw [List.flatMap_cons, readFrom_char, ih]

/-- A byte array is listed from an index on, after what is gathered in reverse. -/
theorem listed_from (bytes : ByteArray) (i : Nat) (gathered : List UInt8) :
    ByteArray.toList.loop bytes i gathered = gathered.reverse ++ bytes.data.toList.drop i := by
  fun_induction ByteArray.toList.loop bytes i gathered with
  | case1 i gathered h ih =>
    have hi : i < bytes.data.toList.length := h
    rw [ih, List.drop_eq_getElem_cons hi, List.reverse_cons, List.append_assoc]
    simp [ByteArray.get!, h]
  | case2 i gathered h =>
    have hi : bytes.data.toList.length ≤ i := Nat.le_of_not_lt h
    rw [List.drop_eq_nil_of_le hi, List.append_nil]

theorem write_eq (text : String) : write text = text.toList.flatMap String.utf8EncodeChar := by
  have h : text.toUTF8 = (text.toList.flatMap String.utf8EncodeChar).toByteArray := by
    rw [String.toUTF8_eq_toByteArray, ← String.utf8Encode_toList]
    rfl
  rw [write, h, ByteArray.toList, listed_from, List.toList_data_toByteArray]
  rfl

/-- Every text is read back from its bytes. -/
theorem read_write (text : String) : read (write text) = text := by
  rw [read, write_eq, readFrom_chars, String.ofList_toList]

theorem write_append (s t : String) : write (s ++ t) = write s ++ write t := by
  rw [write_eq, write_eq, write_eq, String.toList_append, List.flatMap_append]

/-! ## Characters of a single byte -/

/-- Whatever bytes follow, they complete no character that a single byte stands for. -/
def Begun.Long (b : Begun) : Prop := 0x80 ≤ (b.bits * 64 + (b.least - 0x80)) * 64 ^ b.further

theorem Begun.Long.next {b : Begun} (h : b.Long) {n : Nat} (hl : b.least ≤ n) :
    0x80 ≤ (b.bits * 64 + (n - 0x80)) * 64 ^ b.further :=
  Nat.le_trans h (Nat.mul_le_mul_right _ (by omega))

/-- A first byte is its own character, or begins a longer one, or begins none. -/
theorem Lead.ofByte_cases (byte : UInt8) :
    (∃ c, ofByte byte = .whole c ∧ UInt8.ofNat c.toNat = byte) ∨
      (∃ b, ofByte byte = .begun b ∧ b.Long) ∨ ofByte byte = .stray := by
  have hbyte : UInt8.ofNat byte.toNat = byte := UInt8.ofNat_toNat
  unfold ofByte
  generalize byte.toNat = n at hbyte
  simp only
  split
  · have hvalid : n.isValidChar := .inl (by omega)
    refine .inl ⟨_, rfl, ?_⟩
    rw [Char.toNat_ofNat, if_pos hvalid, hbyte]
  split
  · exact .inr (.inr rfl)
  split
  · refine .inr (.inl ⟨_, rfl, ?_⟩)
    simp only [Begun.Long]
    omega
  split
  · refine .inr (.inl ⟨_, rfl, ?_⟩)
    simp only [Begun.Long]
    split <;> omega
  split
  · refine .inr (.inl ⟨_, rfl, ?_⟩)
    simp only [Begun.Long]
    split <;> omega
  · exact .inr (.inr rfl)

theorem le_toNat_ofNat {n : Nat} (hn : 0x80 ≤ n) (hc : Char.ofNat n ≠ '\x00') :
    0x80 ≤ (Char.ofNat n).toNat := by
  have hvalid : n.isValidChar := by
    by_contra hinvalid
    apply hc
    rw [Char.ofNat, dif_neg hinvalid]
    rfl
  rwa [Char.toNat_ofNat, if_pos hvalid]

/-- A character of a single byte is read only where that byte stands. -/
theorem mem_of_mem_readFrom {c : Char} (hzero : c ≠ '\x00') (hc : c.toNat < 0x80)
    {begun : Option Begun} {bytes : List UInt8} (hlong : ∀ b ∈ begun, b.Long)
    (h : c ∈ readFrom begun bytes) : UInt8.ofNat c.toNat ∈ bytes := by
  have hreplacement : c ≠ replacement := by
    rintro rfl
    exact absurd hc (by decide)
  induction bytes generalizing begun with
  | nil =>
    cases begun with
    | none => cases h
    | some b => exact absurd (List.mem_singleton.mp h) hreplacement
  | cons byte rest ih =>
    have hnone : c ∈ readFrom none rest → UInt8.ofNat c.toNat ∈ rest := ih (by simp)
    have hfirst : c ∈ readFrom none (byte :: rest) → UInt8.ofNat c.toNat ∈ byte :: rest := by
      intro h
      rcases Lead.ofByte_cases byte with ⟨c', hlead, hbyte⟩ | ⟨b, hlead, hb⟩ | hlead <;>
        simp only [readFrom, hlead] at h
      · rcases List.mem_cons.mp h with rfl | h
        · exact hbyte ▸ List.mem_cons_self
        · exact List.mem_cons_of_mem _ (hnone h)
      · exact List.mem_cons_of_mem _ (ih (by simpa using hb) h)
      · exact List.mem_cons_of_mem _ (hnone (List.mem_of_ne_of_mem hreplacement h))
    cases begun with
    | none => exact hfirst h
    | some b =>
      rw [readFrom] at h
      split at h
      · rename_i hrange
        have hbits := (hlong b rfl).next hrange.1
        simp only at h
        split at h
        · rename_i hfurther
          rw [hfurther, Nat.pow_zero, Nat.mul_one] at hbits
          rcases List.mem_cons.mp h with hlast | h
          · rw [hlast] at hc hzero
            exact absurd hc (Nat.not_lt.mpr (le_toNat_ofNat hbits hzero))
          · exact List.mem_cons_of_mem _ (hnone h)
        · rename_i n hfurther
          rw [hfurther, Nat.pow_succ', ← Nat.mul_assoc] at hbits
          refine List.mem_cons_of_mem _ (ih ?_ h)
          intro b' hb'
          obtain rfl := Option.some.inj hb'
          simpa only [Begun.Long, Nat.sub_self, Nat.add_zero] using hbits
      · -- the byte ends what had begun, and is read as a first byte
        exact hfirst (List.mem_of_ne_of_mem hreplacement h)

end Utf8

end LicenseAudit
