import PlanShape.Signature

/-!
Hexadecimal digits. A digit stands for its place among the sixteen digits, and larger digits are
later characters. A byte is written with a digit for each of its halves, so equally many digits
belong to every byte: bytes are read back from their digits, and the order of byte strings is the
order of their digits.
-/
namespace PlanShape

namespace Hexadecimal

/-- The sixteen digits, smallest first. -/
def digits : List Char := "0123456789abcdef".toList

/-- The number that a digit stands for. -/
def value (c : Char) : Nat := digits.idxOf c

/-- The number that a line of digits stands for, highest digit first. -/
def number (cs : List Char) : Nat := cs.foldl (fun n c => 16 * n + value c) 0

theorem getElem?_digits : ∀ {n : Nat}, n < 16 → digits[n]? = some (Nat.digitChar n) := by decide

theorem digitChar_mem_digits {n : Nat} (h : n < 16) : Nat.digitChar n ∈ digits :=
  List.mem_of_getElem? (getElem?_digits h)

theorem value_digitChar : ∀ {n : Nat}, n < 16 → value (Nat.digitChar n) = n := by decide

theorem value_lt {c : Char} (h : c ∈ digits) : value c < 16 := List.idxOf_lt_length_of_mem h

theorem digitChar_value {c : Char} (h : c ∈ digits) : Nat.digitChar (value c) = c := by
  have hplace : digits[value c]? = some c :=
    List.getElem?_eq_some_iff.2 ⟨List.idxOf_lt_length_of_mem h, List.getElem_idxOf _⟩
  exact Option.some.inj ((getElem?_digits (value_lt h)).symm.trans hplace)

theorem digitChar_lt_digitChar : ∀ {m : Nat}, m < 16 → ∀ {n : Nat}, n < 16 →
    (Nat.digitChar m < Nat.digitChar n ↔ m < n) := by
  decide

theorem digitChar_inj {m n : Nat} (hm : m < 16) (hn : n < 16) :
    Nat.digitChar m = Nat.digitChar n ↔ m = n := by
  constructor
  · intro h
    rw [← value_digitChar hm, h, value_digitChar hn]
  · rintro rfl
    rfl

theorem number_concat (cs : List Char) (c : Char) :
    number (cs ++ [c]) = 16 * number cs + value c := by
  simp [number]

/-- The digits of a number stand for it. -/
theorem number_toDigits (n : Nat) : number (Nat.toDigits 16 n) = n := by
  induction n using Nat.strongRecOn with
  | _ n ih =>
    by_cases hn : n < 16
    · rw [Nat.toDigits_of_lt_base hn]
      simp [number, value_digitChar hn]
    · -- the digits in front of the last one are those of the quotient
      have hlast : n % 16 < 16 := Nat.mod_lt n (by decide)
      rw [Nat.toDigits_of_base_le (by decide) (by omega), number_concat, ih (n / 16) (by omega),
        value_digitChar hlast]
      omega

theorem mem_digits_of_mem_toDigits {n : Nat} {c : Char} (h : c ∈ Nat.toDigits 16 n) :
    c ∈ digits := by
  induction n using Nat.strongRecOn with
  | _ n ih =>
    by_cases hn : n < 16
    · rw [Nat.toDigits_of_lt_base hn, List.mem_singleton] at h
      exact h ▸ digitChar_mem_digits hn
    · rw [Nat.toDigits_of_base_le (by decide) (by omega), List.mem_append, List.mem_singleton] at h
      rcases h with h | rfl
      · exact ih (n / 16) (by omega) h
      · exact digitChar_mem_digits (Nat.mod_lt n (by decide))

/-- The bytes that pairs of digits stand for. Other characters are refused, and so is a digit that
is left over. -/
def bytes? : List Char → Option (List UInt8)
  | [] => some []
  | [_] => none
  | c :: d :: rest =>
    if c ∈ digits ∧ d ∈ digits then
      (bytes? rest).map ((16 * value c + value d).toUInt8 :: ·)
    else none

end Hexadecimal

namespace Signature

open Hexadecimal

/-- Each half of a byte fits into one digit. -/
theorem halves_lt (b : UInt8) : b.toNat / 16 < 16 ∧ b.toNat % 16 < 16 := by
  have hlt := b.toNat_lt
  omega

theorem mem_digits_of_mem_byteHex {b : UInt8} {c : Char} (h : c ∈ byteHex b) : c ∈ digits := by
  obtain ⟨hhigh, hlow⟩ := halves_lt b
  rcases List.mem_cons.1 h with rfl | h
  · exact digitChar_mem_digits hhigh
  · rw [List.mem_singleton.1 h]
    exact digitChar_mem_digits hlow

theorem length_flatMap_byteHex (bs : List UInt8) :
    (bs.flatMap byteHex).length = 2 * bs.length := by
  induction bs with
  | nil => rfl
  | cons b bs ih =>
    rw [List.flatMap_cons, List.length_append, ih, length_byteHex, List.length_cons]
    omega

theorem byteHex_ofValues {c d : Char} (hc : c ∈ digits) (hd : d ∈ digits) :
    byteHex (16 * value c + value d).toUInt8 = [c, d] := by
  have hcv := value_lt hc
  have hdv := value_lt hd
  have hnat : (16 * value c + value d).toUInt8.toNat = 16 * value c + value d := by
    rw [Nat.toUInt8_eq, UInt8.toNat_ofNat']
    omega
  have hhigh : (16 * value c + value d) / 16 = value c := by omega
  have hlow : (16 * value c + value d) % 16 = value d := by omega
  rw [byteHex, hnat, hhigh, hlow, digitChar_value hc, digitChar_value hd]

theorem bytes?_flatMap_byteHex (bs : List UInt8) : bytes? (bs.flatMap byteHex) = some bs := by
  induction bs with
  | nil => rfl
  | cons b bs ih =>
    obtain ⟨hhigh, hlow⟩ := halves_lt b
    have hbyte : (16 * (b.toNat / 16) + b.toNat % 16).toUInt8 = b := by
      rw [Nat.div_add_mod, Nat.toUInt8_eq, UInt8.ofNat_toNat]
    rw [List.flatMap_cons, byteHex, List.cons_append, List.cons_append, List.nil_append, bytes?,
      if_pos ⟨digitChar_mem_digits hhigh, digitChar_mem_digits hlow⟩, ih, value_digitChar hhigh,
      value_digitChar hlow, hbyte, Option.map_some]

/-- Bytes are read from nothing else than their own digits. -/
theorem bytes?_eq_some_iff {cs : List Char} {bs : List UInt8} :
    bytes? cs = some bs ↔ cs = bs.flatMap byteHex := by
  constructor
  · intro h
    fun_induction bytes? cs generalizing bs with
    | case1 =>
      obtain rfl := Option.some.inj h
      rfl
    | case2 => cases h
    | case3 c d rest hdigits ih =>
      obtain ⟨later, hlater, rfl⟩ := Option.map_eq_some_iff.1 h
      rw [List.flatMap_cons, byteHex_ofValues hdigits.1 hdigits.2, ← ih hlater]
      rfl
    | case4 => cases h
  · rintro rfl
    exact bytes?_flatMap_byteHex bs

/-- The higher half decides unless it is the same, as the first of two digits does. -/
theorem byteHex_append_lt_iff {a b : UInt8} {cs ds : List Char} :
    byteHex a ++ cs < byteHex b ++ ds ↔ a < b ∨ a = b ∧ cs < ds := by
  obtain ⟨hah, hal⟩ := halves_lt a
  obtain ⟨hbh, hbl⟩ := halves_lt b
  have hlt : a < b ↔ a.toNat / 16 < b.toNat / 16 ∨
      a.toNat / 16 = b.toNat / 16 ∧ a.toNat % 16 < b.toNat % 16 := by
    rw [UInt8.lt_iff_toNat_lt]
    omega
  have heq : a = b ↔ a.toNat / 16 = b.toNat / 16 ∧ a.toNat % 16 = b.toNat % 16 := by
    rw [← UInt8.toNat_inj]
    omega
  simp only [byteHex, List.cons_append, List.nil_append, List.cons_lt_cons_iff,
    digitChar_lt_digitChar hah hbh, digitChar_lt_digitChar hal hbl, digitChar_inj hah hbh,
    digitChar_inj hal hbl, hlt, heq, and_or_left, or_assoc, and_assoc]

/-- Byte strings are ordered as their digits are. -/
theorem flatMap_byteHex_lt_iff {as bs : List UInt8} :
    as.flatMap byteHex < bs.flatMap byteHex ↔ as < bs := by
  induction as generalizing bs with
  | nil =>
    cases bs with
    | nil => exact iff_of_false (List.lt_irrefl _) (List.lt_irrefl _)
    | cons b bs => exact iff_of_true (List.nil_lt_cons _ _) (List.nil_lt_cons _ _)
  | cons a as ih =>
    cases bs with
    | nil => exact iff_of_false (List.not_lt_nil _) (List.not_lt_nil _)
    | cons b bs =>
      rw [List.flatMap_cons, List.flatMap_cons, byteHex_append_lt_iff, ih, List.cons_lt_cons_iff]

/-- The signature that a text of 64 digits stands for. -/
def ofHex? (text : String) : Option Signature :=
  (bytes? text.toList).bind fun bytes =>
    if h : bytes.length = 32 then some ⟨⟨bytes.toArray, by simpa using h⟩⟩ else none

theorem ofHex?_eq_some_iff {text : String} {s : Signature} :
    ofHex? text = some s ↔ text = s.hex := by
  constructor
  · intro h
    obtain ⟨bytes, hbytes, h⟩ := Option.bind_eq_some_iff.1 h
    split at h
    · obtain rfl := Option.some.inj h
      rw [← String.toList_inj, hex, String.toList_ofList]
      exact bytes?_eq_some_iff.1 hbytes
    · cases h
  · rintro rfl
    have hbytes : bytes? s.hex.toList = some s.bytes.toList := by
      rw [hex, String.toList_ofList]
      exact bytes?_eq_some_iff.2 rfl
    rw [ofHex?, hbytes, Option.bind_some, dif_pos s.bytes.length_toList]
    rfl

theorem hex_lt_iff {a b : Signature} : a.hex < b.hex ↔ a < b := by
  rw [String.lt_iff, hex, hex, String.toList_ofList, String.toList_ofList]
  exact flatMap_byteHex_lt_iff

/-- A signature is written with 64 lower-case digits. The written forms are the only texts that are
read as signatures, each as the signature that it was written for, and they are compared character
by character with the same outcome as the bytes of the signatures. -/
theorem hex_keeps_bytes_and_order (a b : Signature) :
    a.hex.length = 64 ∧ (∀ c ∈ a.hex.toList, c ∈ digits) ∧
    (∀ text, ofHex? text = some a ↔ text = a.hex) ∧ (a.hex = b.hex → a = b) ∧
    (a < b ↔ a.hex < b.hex) ∧ compare a b = compare a.hex b.hex := by
  have hinj : a.hex = b.hex ↔ a = b := by
    constructor
    · intro h
      exact Option.some.inj ((ofHex?_eq_some_iff.2 rfl).symm.trans (ofHex?_eq_some_iff.2 h))
    · rintro rfl
      rfl
  refine ⟨?_, ?_, fun text => ofHex?_eq_some_iff, hinj.1, hex_lt_iff.symm, ?_⟩
  · rw [hex, String.length_ofList, hexDigits, length_flatMap_byteHex, Vector.length_toList]
  · intro c hc
    rw [hex, String.toList_ofList, hexDigits] at hc
    obtain ⟨byte, -, hc⟩ := List.mem_flatMap.1 hc
    exact mem_digits_of_mem_byteHex hc
  · change compareOfLessAndEq a b = compareOfLessAndEq a.hex b.hex
    simp only [compareOfLessAndEq, hex_lt_iff, hinj]

end Signature

end PlanShape
