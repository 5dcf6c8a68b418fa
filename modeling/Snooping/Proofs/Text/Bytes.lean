import Mathlib.Data.String.Basic
import Mathlib.Tactic.Common

/-!
# The order of texts and of their bytes

Texts are compared character by character, and so are their bytes in UTF-8: the bytes of a character
tell where it stands among all characters as soon as they differ.

* `bytes`: the bytes of a text.
* `cons_lt_cons_of_digit`: a byte with the next digits of a code point.
* `utf8EncodeChar_lt`: characters.
* **`bytes_lt_bytes_iff`**: texts.
-/

namespace Snooping.Text

variable {v w m s o : Nat} {x y : List UInt8} {c d : Char}

/-- The bytes of a text in UTF-8. -/
def bytes (s : String) : List UInt8 := s.toUTF8.data.toList

theorem bytes_eq (s : String) : bytes s = s.toList.flatMap String.utf8EncodeChar := by
  rw [bytes, String.toUTF8_eq_toByteArray, ← String.utf8Encode_toList, List.utf8Encode,
    List.toList_data_toByteArray]

theorem ofNat_lt_ofNat (h : v < w) (hw : w < 256) : UInt8.ofNat v < UInt8.ofNat w := by
  rw [UInt8.lt_iff_toNat_lt, UInt8.toNat_ofNat', UInt8.toNat_ofNat']
  omega

theorem cons_lt_cons_of_lt (h : v < w) (hw : w < 256) : UInt8.ofNat v :: x < UInt8.ofNat w :: y :=
  List.cons_lt_cons_iff.mpr (.inl (ofNat_lt_ofNat h hw))

/-- A byte has the digit at `m` of a code point, in base `s`. If the code points agree in all higher
digits, it decides unless they agree in this one, too. -/
theorem cons_lt_cons_of_digit (hvw : v < w) (hs : v / m / s = w / m / s) (ho : s + o ≤ 256)
    (hpos : 0 < s) (h : v / m = w / m → x < y) :
    UInt8.ofNat (v / m % s + o) :: x < UInt8.ofNat (w / m % s + o) :: y := by
  have hv := Nat.div_add_mod (v / m) s
  have hw := Nat.div_add_mod (w / m) s
  have hlt : w / m % s < s := Nat.mod_lt _ hpos
  obtain heq | hne := Nat.eq_or_lt_of_le (Nat.div_le_div_right (c := m) (Nat.le_of_lt hvw))
  · rw [heq]
    exact List.cons_lt_cons_iff.mpr (.inr ⟨rfl, h heq⟩)
  · rw [hs] at hv
    exact cons_lt_cons_of_lt (by omega) (by omega)

theorem utf8EncodeChar_lt (h : c < d) (x y : List UInt8) :
    String.utf8EncodeChar c ++ x < String.utf8EncodeChar d ++ y := by
  have hlt : c.val.toNat < d.val.toNat := h
  have hd : d.val.toNat < 0x110000 := by
    obtain hd | ⟨-, hd⟩ := d.valid
    · exact Nat.lt_trans hd (by decide)
    · exact hd
  simp only [String.utf8EncodeChar]
  generalize c.val.toNat = v at *
  generalize d.val.toNat = w at *
  split_ifs <;> try omega
  · exact cons_lt_cons_of_lt hlt (by omega)
  · exact cons_lt_cons_of_lt (by omega) (by omega)
  · exact cons_lt_cons_of_lt (by omega) (by omega)
  · exact cons_lt_cons_of_lt (by omega) (by omega)
  · -- Two bytes each: the second one decides if the first ones agree.
    refine cons_lt_cons_of_digit hlt (by omega) (by decide) (by decide) fun h1 => ?_
    exact cons_lt_cons_of_lt (by omega) (by omega)
  · exact cons_lt_cons_of_lt (by omega) (by omega)
  · exact cons_lt_cons_of_lt (by omega) (by omega)
  · refine cons_lt_cons_of_digit hlt (by omega) (by decide) (by decide) fun h2 => ?_
    refine cons_lt_cons_of_digit hlt (by omega) (by decide) (by decide) fun h1 => ?_
    exact cons_lt_cons_of_lt (by omega) (by omega)
  · exact cons_lt_cons_of_lt (by omega) (by omega)
  · refine cons_lt_cons_of_digit hlt (by omega) (by decide) (by decide) fun h3 => ?_
    refine cons_lt_cons_of_digit hlt (by omega) (by decide) (by decide) fun h2 => ?_
    refine cons_lt_cons_of_digit hlt (by omega) (by decide) (by decide) fun h1 => ?_
    exact cons_lt_cons_of_lt (by omega) (by omega)

theorem flatMap_lt_flatMap {cs ds : List Char} (h : cs < ds) :
    cs.flatMap String.utf8EncodeChar < ds.flatMap String.utf8EncodeChar := by
  induction ds generalizing cs with
  | nil => cases h
  | cons d ds ih =>
    rw [List.flatMap_cons]
    cases cs with
    | nil =>
      obtain ⟨b, bs, hb⟩ := List.exists_cons_of_ne_nil (String.utf8EncodeChar_ne_nil (c := d))
      rw [hb]
      exact List.nil_lt_cons _ _
    | cons c cs =>
      rw [List.flatMap_cons]
      obtain hlt | ⟨rfl, hlt⟩ := List.cons_lt_cons_iff.mp h
      · exact utf8EncodeChar_lt hlt _ _
      · exact List.append_left_lt (ih hlt)

/-- **Texts are in the order of their bytes.** -/
theorem bytes_lt_bytes_iff {s t : String} : bytes s < bytes t ↔ s < t := by
  have hmono {s t : String} (h : s < t) : bytes s < bytes t := by
    rw [bytes_eq, bytes_eq]
    exact flatMap_lt_flatMap (String.lt_iff.mp h)
  refine ⟨fun h => ?_, hmono⟩
  obtain hlt | rfl | hgt := lt_trichotomy s t
  · exact hlt
  · exact absurd h (List.lt_irrefl _)
  · exact absurd h (List.lt_asymm (hmono hgt))

end Snooping.Text
