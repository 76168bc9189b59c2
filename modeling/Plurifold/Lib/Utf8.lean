import Mathlib.Data.List.Basic
import Mathlib.Data.List.Induction

/-!
# Cutting UTF-8 text at ASCII bytes

A byte below 128 is the whole encoding of a character and no part of a longer one. Bytes that end with one can
therefore be decoded on their own: a text is valid if and only if what comes before and after the cut is
(`decode_append`).
-/

namespace Lib

/-- The encoding of a text. -/
def encode (text : List Char) : List UInt8 := text.flatMap String.utf8EncodeChar

/-- The text that bytes encode. -/
def decode (bytes : List UInt8) : Option (List Char) := (String.fromUTF8? ⟨bytes.toArray⟩).map String.toList

theorem encode_cons (c : Char) (text : List Char) : encode (c :: text) = String.utf8EncodeChar c ++ encode text :=
  List.flatMap_cons

theorem encode_append (before after : List Char) : encode (before ++ after) = encode before ++ encode after :=
  List.flatMap_append

/-- Text is decoded if and only if the bytes are its encoding. -/
theorem decode_eq_some {bytes : List UInt8} {text : List Char} : decode bytes = some text ↔ bytes = encode text := by
  have hbytes : (⟨bytes.toArray⟩ : ByteArray) = bytes.toByteArray := by
    apply ByteArray.ext
    rw [List.data_toByteArray]
  have hinj : ∀ l l' : List UInt8, l.toByteArray = l'.toByteArray → l = l' := by
    intro l l' h
    rw [← List.toList_data_toByteArray (l := l), h, List.toList_data_toByteArray]
  unfold decode String.fromUTF8?
  rw [hbytes]
  constructor
  · intro h
    split at h
    · rename_i hvalid
      simp only [Option.map_some, Option.some.injEq] at h
      have hencode := String.utf8Encode_toList (b := String.fromUTF8 _ hvalid)
      rw [h] at hencode
      exact hinj _ _ hencode.symm
    · cases h
  · rintro rfl
    have hvalid : ByteArray.IsValidUTF8 (encode text).toByteArray := ByteArray.isValidUTF8_utf8Encode
    rw [dif_pos hvalid]
    have hofList : String.fromUTF8 (encode text).toByteArray hvalid = String.ofList text := rfl
    rw [hofList, Option.map_some, String.toList_ofList]

/-- The bytes of a longer encoding are at least 128. -/
theorem ascii_of_mem {c : Char} {byte : UInt8} (h : byte ∈ String.utf8EncodeChar c) (hbyte : byte.toNat < 128) :
    String.utf8EncodeChar c = [byte] ∧ c.toNat = byte.toNat := by
  unfold String.utf8EncodeChar at h ⊢
  dsimp only at h ⊢
  have hbig : ∀ n : Nat, 128 ≤ n % 256 → byte ≠ UInt8.ofNat n := by
    rintro n hn rfl
    rw [UInt8.toNat_ofNat'] at hbyte
    omega
  split at h
  · rename_i hle
    rw [if_pos hle]
    rw [List.mem_singleton] at h
    subst h
    refine ⟨rfl, ?_⟩
    rw [UInt8.toNat_ofNat']
    change c.toNat = c.toNat % 2 ^ 8
    change c.toNat ≤ 127 at hle
    omega
  · exfalso
    split at h
    · simp only [List.mem_cons, List.not_mem_nil, or_false] at h
      rcases h with h | h <;> exact hbig _ (by omega) h
    · split at h
      · simp only [List.mem_cons, List.not_mem_nil, or_false] at h
        rcases h with h | h | h <;> exact hbig _ (by omega) h
      · simp only [List.mem_cons, List.not_mem_nil, or_false] at h
        rcases h with h | h | h | h <;> exact hbig _ (by omega) h

/-- Text that ends, in its encoding, with an ASCII byte ends with that character. -/
theorem getLast?_of_encode {byte : UInt8} (hbyte : byte.toNat < 128) {text : List Char}
    (h : (encode text).getLast? = some byte) : ∃ c, text.getLast? = some c ∧ c.toNat = byte.toNat := by
  induction text using List.reverseRecOn with
  | nil => cases h
  | append_singleton text c _ =>
    have hchar : encode [c] = String.utf8EncodeChar c := List.flatMap_singleton ..
    have hnonempty : String.utf8EncodeChar c ≠ [] := String.utf8EncodeChar_ne_nil
    rw [encode_append, hchar, List.getLast?_append_of_ne_nil _ hnonempty] at h
    refine ⟨c, List.getLast?_concat .., ?_⟩
    exact (ascii_of_mem (List.mem_of_getLast? h) hbyte).2

/-- A cut after an ASCII byte is a cut between two characters. -/
theorem encode_split {byte : UInt8} (hbyte : byte.toNat < 128) : ∀ {text : List Char} {a b : List UInt8},
    a.getLast? = some byte → a ++ b = encode text → ∃ before after, text = before ++ after ∧ a = encode before ∧
      b = encode after
  | [], a, b, hlast, h => by
    rw [(List.append_eq_nil_iff.mp h).1] at hlast
    cases hlast
  | c :: text, a, b, hlast, h => by
    rw [encode_cons] at h
    rcases List.append_eq_append_iff.mp h with ⟨inner, hc, hrest⟩ | ⟨rest, ha, hrest⟩
    · -- the cut falls within the encoding of the first character, which is then the byte alone
      have hmem : byte ∈ String.utf8EncodeChar c := by
        rw [hc]
        exact List.mem_append_left _ (List.mem_of_getLast? hlast)
      have hone := (ascii_of_mem hmem hbyte).1
      have hnonempty : a ≠ [] := by
        rintro rfl
        cases hlast
      have hinner : inner = [] := by
        have hlength := congrArg List.length (hc.symm.trans hone)
        rw [List.length_append, List.length_singleton] at hlength
        have hpos := List.length_pos_iff.mpr hnonempty
        exact List.length_eq_zero_iff.mp (by omega)
      subst hinner
      rw [List.append_nil] at hc
      exact ⟨[c], text, rfl, by rw [encode_cons, hc]; exact (List.append_nil _).symm, hrest⟩
    · by_cases hnil : rest = []
      · subst hnil
        rw [List.append_nil] at ha
        exact ⟨[c], text, rfl, by rw [encode_cons, ha]; exact (List.append_nil _).symm, hrest.symm⟩
      · rw [ha, List.getLast?_append_of_ne_nil _ hnil] at hlast
        obtain ⟨before, after, rfl, hbefore, hafter⟩ := encode_split hbyte hlast hrest.symm
        exact ⟨c :: before, after, rfl, by rw [ha, hbefore, encode_cons], hafter⟩

/-- **Bytes up to an ASCII byte are decoded on their own.** -/
theorem decode_append {byte : UInt8} (hbyte : byte.toNat < 128) {a b : List UInt8} (hlast : a.getLast? = some byte)
    {text : List Char} : decode (a ++ b) = some text ↔
      ∃ before after, decode a = some before ∧ decode b = some after ∧ text = before ++ after := by
  simp only [decode_eq_some]
  constructor
  · intro h
    obtain ⟨before, after, htext, ha, hb⟩ := encode_split hbyte hlast h
    exact ⟨before, after, ha, hb, htext⟩
  · rintro ⟨before, after, rfl, rfl, rfl⟩
    exact (encode_append before after).symm

end Lib
