import Mainboard.TextSources

/-! UTF-8 both ways: what a text is encoded to decodes to it, and nothing else decodes to it. A line feed is one byte
of its own, part of no other character's. -/

namespace Mainboard.Analysis

variable {data : Bytes} {text other : Text}

@[simp] theorem utf8_nil : utf8 [] = [] := rfl

@[simp] theorem utf8_append (text other : Text) : utf8 (text ++ other) = utf8 text ++ utf8 other := List.flatMap_append

theorem utf8Encode_eq (text : Text) : text.utf8Encode = (utf8 text).toByteArray := rfl

theorem toByteArray_injective (h : data.toByteArray = (utf8 text).toByteArray) : data = utf8 text := by
  have hdata := congrArg ByteArray.data h
  rw [List.data_toByteArray, List.data_toByteArray] at hdata
  exact congrArg Array.toList hdata

/-- Bytes decode to a text exactly where they are its encoding. -/
theorem decode_eq_some_iff : decode data = some text ↔ data = utf8 text := by
  unfold decode String.fromUTF8?
  constructor
  · intro h
    split at h
    · rename_i hvalid
      have htext : (String.fromUTF8 data.toByteArray hvalid).toList = text := Option.some.inj h
      refine toByteArray_injective ?_
      rw [← utf8Encode_eq, ← htext, String.utf8Encode_toList]
      rfl
    · cases h
  · rintro rfl
    rw [dif_pos (by rw [← utf8Encode_eq]; exact ByteArray.isValidUTF8_utf8Encode), Option.map_some]
    refine congrArg some (String.ofList_injective ?_)
    rw [String.ofList_toList]
    refine String.toByteArray_inj.mp ?_
    rw [String.toByteArray_ofList]
    rfl

@[simp] theorem decode_utf8 (text : Text) : decode (utf8 text) = some text := decode_eq_some_iff.mpr rfl

theorem ascii_ne_ofNat {byte : UInt8} (hbyte : byte.toNat < 128) {code : ℕ} (hlow : 128 ≤ code) (hhigh : code < 256) :
    byte ≠ UInt8.ofNat code := by
  intro h
  have hcode := congrArg UInt8.toNat h
  rw [UInt8.toNat_ofNat', Nat.mod_eq_of_lt (by omega)] at hcode
  omega

/-- The byte of a character below 128 is in no other character's encoding. -/
theorem ascii_mem_utf8EncodeChar {byte : UInt8} (hbyte : byte.toNat < 128) {char : Char} :
    byte ∈ String.utf8EncodeChar char ↔ char.val.toNat = byte.toNat := by
  unfold String.utf8EncodeChar
  dsimp only
  generalize hcode : char.val.toNat = code
  constructor
  · intro h
    split at h
    · rename_i hshort
      have hsame := congrArg UInt8.toNat (List.mem_singleton.mp h)
      rw [UInt8.toNat_ofNat', Nat.mod_eq_of_lt (by omega)] at hsame
      exact hsame.symm
    · refine absurd h ?_
      split
      · simp only [List.mem_cons, List.not_mem_nil, or_false, not_or]
        exact ⟨ascii_ne_ofNat hbyte (by omega) (by omega), ascii_ne_ofNat hbyte (by omega) (by omega)⟩
      · split
        · simp only [List.mem_cons, List.not_mem_nil, or_false, not_or]
          exact ⟨ascii_ne_ofNat hbyte (by omega) (by omega), ascii_ne_ofNat hbyte (by omega) (by omega),
            ascii_ne_ofNat hbyte (by omega) (by omega)⟩
        · simp only [List.mem_cons, List.not_mem_nil, or_false, not_or]
          exact ⟨ascii_ne_ofNat hbyte (by omega) (by omega), ascii_ne_ofNat hbyte (by omega) (by omega),
            ascii_ne_ofNat hbyte (by omega) (by omega), ascii_ne_ofNat hbyte (by omega) (by omega)⟩
  · intro h
    rw [if_pos (by omega), h, UInt8.ofNat_toNat]
    exact List.mem_singleton_self byte

/-- A character below 128 is in a text exactly when its byte is in the text's bytes. -/
theorem ascii_mem_utf8 {char : Char} (h : char.val.toNat < 128) :
    UInt8.ofNat char.val.toNat ∈ utf8 text ↔ char ∈ text := by
  have hbyte : (UInt8.ofNat char.val.toNat).toNat = char.val.toNat := by
    rw [UInt8.toNat_ofNat', Nat.mod_eq_of_lt (by omega)]
  unfold utf8
  rw [List.mem_flatMap]
  constructor
  · rintro ⟨other, hother, hmem⟩
    have hsame := (ascii_mem_utf8EncodeChar (by omega)).mp hmem
    rw [hbyte] at hsame
    rwa [← Char.ext (UInt32.toNat_inj.mp hsame)]
  · exact fun hchar => ⟨char, hchar, (ascii_mem_utf8EncodeChar (by omega)).mpr hbyte.symm⟩

theorem newline_mem_utf8 : (10 : UInt8) ∈ utf8 text ↔ '\n' ∈ text := @ascii_mem_utf8 text '\n' (by decide)

theorem return_mem_utf8 : (13 : UInt8) ∈ utf8 text ↔ '\r' ∈ text := @ascii_mem_utf8 text '\r' (by decide)

end Mainboard.Analysis
