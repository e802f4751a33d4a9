import Mathlib.Data.Fin.Basic
import Mathlib.Data.List.Basic
import Mathlib.Data.List.Lex

/-!
# Byte strings

Byte strings and `bytes.decode('utf-8')`.
-/

namespace YdbSnippets
namespace Python

/-- A byte string. -/
abbrev Bytes := List (Fin 256)

/-- `text.encode('utf-8')` -/
def utf8Bytes (text : String) : Bytes :=
  text.toByteArray.data.toList.map UInt8.toFin

/-- `data.decode('utf-8')`, or `none` for the `UnicodeDecodeError`. -/
def decodeUtf8 (data : Bytes) : Option String :=
  String.fromUTF8? ⟨(data.map UInt8.ofFin).toArray⟩

/-- What is decoded is encoded back. -/
theorem utf8Bytes_of_decodeUtf8
    {data : Bytes} {text : String}
    (h : decodeUtf8 data = some text) :
    utf8Bytes text = data := by
  unfold decodeUtf8 String.fromUTF8? at h
  split at h
  · cases h
    unfold utf8Bytes String.fromUTF8
    rw [List.toList_toArray, List.map_map]
    exact (List.map_congr_left fun _ _ => rfl).trans (List.map_id data)
  · cases h

theorem decodeUtf8_utf8Bytes (text : String) :
    decodeUtf8 (utf8Bytes text) = some text := by
  have hbytes : (⟨((utf8Bytes text).map UInt8.ofFin).toArray⟩ : ByteArray) = text.toByteArray := by
    unfold utf8Bytes
    rw [List.map_map]
    have hid : text.toByteArray.data.toList.map (UInt8.ofFin ∘ UInt8.toFin) =
        text.toByteArray.data.toList :=
      (List.map_congr_left fun _ _ => rfl).trans (List.map_id _)
    rw [hid, Array.toArray_toList]
  unfold decodeUtf8 String.fromUTF8?
  rw [hbytes, dif_pos text.isValidUTF8]
  rfl

@[simp] theorem utf8Bytes_empty : utf8Bytes "" = [] := rfl

/-- The bytes of a character. -/
def encodeChar (c : Char) : Bytes :=
  (String.utf8EncodeChar c).map UInt8.toFin

/-- `text.encode('utf-8')`, of a list of characters. -/
def encode (text : List Char) : Bytes :=
  text.flatMap encodeChar

@[simp] theorem encode_nil : encode [] = [] := rfl

@[simp] theorem encode_cons
    (c : Char) (text : List Char) :
    encode (c :: text) = encodeChar c ++ encode text :=
  List.flatMap_cons

@[simp] theorem encode_append
    (text text' : List Char) :
    encode (text ++ text') = encode text ++ encode text' :=
  List.flatMap_append

theorem utf8Bytes_eq_encode (text : String) :
    utf8Bytes text = encode text.toList := by
  unfold utf8Bytes encode encodeChar
  rw [← String.utf8Encode_toList, List.utf8Encode, List.toList_data_toByteArray, List.map_flatMap]

/-- The bytes that are decoded are those of the text. -/
theorem decodeUtf8_eq_some_iff
    {data : Bytes} {text : String} :
    decodeUtf8 data = some text ↔ encode text.toList = data := by
  rw [← utf8Bytes_eq_encode]
  constructor
  · exact utf8Bytes_of_decodeUtf8
  · rintro rfl
    exact decodeUtf8_utf8Bytes text

theorem encodeChar_ascii
    {b : Fin 256}
    (hb : b < 128) :
    encodeChar (Char.ofNat b) = [b] := by
  have hall : ∀ b : Fin 256, b < 128 → encodeChar (Char.ofNat b) = [b] := by decide +kernel
  exact hall b hb

/-- A byte below 128 stands for one character only. -/
theorem mem_encodeChar_iff
    {b : Fin 256} {c : Char}
    (hb : b < 128) :
    b ∈ encodeChar c ↔ c = Char.ofNat b := by
  have hlt : (b : Nat) < 128 := hb
  constructor
  · intro h
    obtain ⟨byte, hmem, rfl⟩ := List.mem_map.mp h
    have hbyte : ∀ n : Nat, byte = UInt8.ofNat n → n % 256 = byte.toFin := by
      intro n hn
      rw [hn]
      exact (UInt8.toNat_ofNat' (n := n)).symm
    have hval : c.toNat = byte.toFin := by
      change c.val.toNat = _
      unfold String.utf8EncodeChar at hmem
      dsimp only at hmem
      split_ifs at hmem with hone htwo hthree <;>
        simp only [List.mem_cons, List.not_mem_nil, or_false] at hmem
      · have hn := hbyte _ hmem
        omega
      · rcases hmem with hmem | hmem <;>
          · have hn := hbyte _ hmem
            omega
      · rcases hmem with hmem | hmem | hmem <;>
          · have hn := hbyte _ hmem
            omega
      · rcases hmem with hmem | hmem | hmem | hmem <;>
          · have hn := hbyte _ hmem
            omega
    rw [← hval, Char.ofNat_toNat]
  · rintro rfl
    rw [encodeChar_ascii hb]
    exact List.mem_singleton.mpr rfl

/-- A text is cut at the character of such a byte where its bytes are cut. -/
theorem exists_of_encode_eq_append
    {b : Fin 256} (hb : b < 128) {text : List Char} {data rest : Bytes}
    (h : encode text = data ++ b :: rest) :
    ∃ front back, text = front ++ Char.ofNat b :: back ∧ encode front = data ∧
      encode back = rest := by
  induction text generalizing data with
  | nil => cases data <;> cases h
  | cons c text ih =>
      rw [encode_cons] at h
      rcases List.append_eq_append_iff.mp h with ⟨tail, rfl, hrest⟩ | ⟨tail, hc, hrest⟩
      · obtain ⟨front, back, rfl, rfl, hback⟩ := ih hrest
        exact ⟨c :: front, back, rfl, encode_cons c front, hback⟩
      · cases tail with
        | nil =>
            have hstart : encode text = [] ++ b :: rest := hrest.symm
            obtain ⟨front, back, rfl, hfront, hback⟩ := ih hstart
            refine ⟨c :: front, back, rfl, ?_, hback⟩
            rw [encode_cons, hfront, hc, List.append_nil, List.append_nil]
        | cons byte tail =>
            obtain ⟨rfl, htail⟩ := List.cons.inj hrest
            have hchar : c = Char.ofNat b := by
              refine (mem_encodeChar_iff hb).mp ?_
              rw [hc]
              exact List.mem_append_right _ List.mem_cons_self
            subst hchar
            rw [encodeChar_ascii hb] at hc
            obtain ⟨rfl, rfl⟩ : data = [] ∧ tail = [] := by
              cases data with
              | nil => exact ⟨rfl, (List.cons.inj hc).2.symm⟩
              | cons other data => exact absurd (List.cons.inj hc).2 (by simp)
            exact ⟨[], text, rfl, rfl, htail.symm⟩

/-- The bytes are those of a text. -/
def IsUtf8 (data : Bytes) : Prop :=
  ∃ text, encode text = data

theorem isUtf8_encode (text : List Char) :
    IsUtf8 (encode text) :=
  ⟨text, rfl⟩

theorem decodeUtf8_encode (text : List Char) :
    decodeUtf8 (encode text) = some (String.ofList text) :=
  decodeUtf8_eq_some_iff.mpr (congrArg encode String.toList_ofList)

theorem decodeUtf8_eq_none_iff
    {data : Bytes} :
    decodeUtf8 data = none ↔ ¬ IsUtf8 data := by
  constructor
  · rintro h ⟨text, rfl⟩
    rw [decodeUtf8_encode] at h
    cases h
  · intro h
    by_contra hsome
    obtain ⟨text, htext⟩ := Option.ne_none_iff_exists'.mp hsome
    exact h ⟨text.toList, decodeUtf8_eq_some_iff.mp htext⟩

/-- What stands on the two sides of a byte below 128 is decoded by itself. -/
theorem isUtf8_append_cons_iff
    {b : Fin 256} {data rest : Bytes}
    (hb : b < 128) :
    IsUtf8 (data ++ b :: rest) ↔ IsUtf8 data ∧ IsUtf8 rest := by
  constructor
  · rintro ⟨text, h⟩
    obtain ⟨front, back, -, hfront, hback⟩ := exists_of_encode_eq_append hb h
    exact ⟨⟨front, hfront⟩, ⟨back, hback⟩⟩
  · rintro ⟨⟨front, rfl⟩, ⟨back, rfl⟩⟩
    exact ⟨front ++ Char.ofNat b :: back, by
      rw [encode_append, encode_cons, encodeChar_ascii hb, List.singleton_append]⟩

end Python
end YdbSnippets
