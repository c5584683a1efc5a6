import HeaderRelay.Bitcoin.Display
import Mathlib.Data.String.Basic

/-!
# The texts that hexadecimal reading takes

A text is read as a hash exactly if it has 64 digits of either case (`Hex.IsHashText`), and the hash is the one whose
writing is the lowercase form of the text. The reader counts UTF-8 bytes and not characters; of digits there are as many
of one as of the other, and a character that takes several bytes is none.

What is known of the sixteen digits is read off a table of the characters of one byte (`Hex.IsDigit.value`). From there
`Hex.decodeChars_eq_ok_iff` goes by two characters at a time.

Results: `Hex.decodeHash_eq_ok_iff`, and for the display order `Hash.ofDisplay_eq_ok_iff`.
-/
namespace HeaderRelay

namespace Hex

variable {c : Char} {cs : List Char} {b : Bytes} {text : String} {h : Hash} {m n position : Nat}

/-! ## Digits -/

def IsDigit (c : Char) : Prop := ('0' ≤ c ∧ c ≤ '9') ∨ ('a' ≤ c ∧ c ≤ 'f') ∨ ('A' ≤ c ∧ c ≤ 'F')

instance : DecidablePred IsDigit := fun _ => inferInstanceAs (Decidable (_ ∨ _))

theorem IsDigit.code_lt (h : IsDigit c) : c.toNat < 128 := by
  have hcode {d : Char} (hle : c ≤ d) (hd : d.toNat < 128) : c.toNat < 128 := Nat.lt_of_le_of_lt hle hd
  obtain ⟨-, hle⟩ | ⟨-, hle⟩ | ⟨-, hle⟩ := h
  · exact hcode hle (by decide)
  · exact hcode hle (by decide)
  · exact hcode hle (by decide)

theorem digitValue?_table : ∀ code < 128, IsDigit (Char.ofNat code) →
    ∃ n < 16, digitValue? (Char.ofNat code) = some n ∧ digit n = (Char.ofNat code).toLower := by
  decide +kernel

theorem IsDigit.value (h : IsDigit c) : ∃ n < 16, digitValue? c = some n ∧ digit n = c.toLower := by
  have htable := digitValue?_table c.toNat h.code_lt
  rw [Char.ofNat_toNat] at htable
  exact htable h

theorem digitValue?_of_not_isDigit (h : ¬ IsDigit c) : digitValue? c = none := by
  rw [IsDigit, not_or, not_or] at h
  rw [digitValue?, if_neg h.1, if_neg h.2.1, if_neg h.2.2]

theorem digit_lowercase : ∀ n < 16, IsDigit (digit n) ∧ (digit n).toLower = digit n := by decide

theorem digit_injective : ∀ m < 16, ∀ n < 16, digit m = digit n → m = n := by decide

/-- The digit that is written for a value is the lowercase form of those that have it. -/
theorem digitValue?_eq_some_iff : digitValue? c = some n ↔ IsDigit c ∧ n < 16 ∧ digit n = c.toLower := by
  by_cases hc : IsDigit c
  · obtain ⟨m, hm, hvalue, hdigit⟩ := hc.value
    rw [hvalue, ← hdigit, and_iff_right hc, Option.some_inj]
    constructor
    · rintro rfl
      exact ⟨hm, rfl⟩
    · rintro ⟨hn, heq⟩
      exact digit_injective m hm n hn heq.symm
  · rw [digitValue?_of_not_isDigit hc]
    exact iff_of_false (by simp) fun h => hc h.1

/-! ## Pairs of digits -/

theorem toNat_pair {hi lo : Nat} (hhi : hi < 16) (hlo : lo < 16) :
    (UInt8.ofNat (16 * hi + lo)).toNat = 16 * hi + lo := by
  rw [UInt8.toNat_ofNat', Nat.mod_eq_of_lt (by omega)]

/-- Characters are read as bytes exactly if they are digits and the bytes are written as their lowercase forms. -/
theorem decodeChars_eq_ok_iff :
    decodeChars position cs = .ok b ↔ (∀ c ∈ cs, IsDigit c) ∧ encodeChars b = cs.map Char.toLower := by
  have hnone {c : Char} (hvalue : digitValue? c = none) (hc : IsDigit c) : False := by
    obtain ⟨n, -, hsome, -⟩ := hc.value
    rw [hvalue] at hsome
    cases hsome
  fun_induction decodeChars position cs generalizing b with
  | case1 position => cases b <;> simp [encodeChars]
  | case2 position c hc => cases b <;> simp [encodeChars]
  | case3 position c n hc => cases b <;> simp [encodeChars]
  | case4 position c d rest hc => exact iff_of_false (by simp) fun h => hnone hc (h.1 c (by simp))
  | case5 position c d rest hi hd hc => exact iff_of_false (by simp) fun h => hnone hd (h.1 d (by simp))
  | case6 position c d rest hi lo hd hc ih =>
    obtain ⟨hcdigit, hhi, hclower⟩ := digitValue?_eq_some_iff.mp hc
    obtain ⟨hddigit, hlo, hdlower⟩ := digitValue?_eq_some_iff.mp hd
    rw [List.forall_mem_cons, List.forall_mem_cons, and_iff_right hcdigit, and_iff_right hddigit, List.map_cons,
      List.map_cons, ← hclower, ← hdlower]
    constructor
    · intro h
      cases hrest : decodeChars (position + 2) rest with
      | error e =>
        rw [hrest] at h
        cases h
      | ok tail =>
        rw [hrest] at h
        cases h
        obtain ⟨hdigits, hwritten⟩ := ih.mp hrest
        rw [encodeChars, toNat_pair hhi hlo, hwritten, show (16 * hi + lo) / 16 = hi by omega,
          show (16 * hi + lo) % 16 = lo by omega]
        exact ⟨hdigits, rfl⟩
    · rintro ⟨hdigits, hwritten⟩
      cases b with
      | nil => cases hwritten
      | cons x tail =>
        have hx := x.toNat_lt
        rw [encodeChars, List.cons.injEq, List.cons.injEq] at hwritten
        obtain ⟨hhigh, hlow, htail⟩ := hwritten
        have hhigh := digit_injective _ (by omega) hi hhi hhigh
        have hlow := digit_injective _ (by omega) lo hlo hlow
        rw [ih.mpr ⟨hdigits, htail⟩, ← hhigh, ← hlow, Nat.div_add_mod, UInt8.ofNat_toNat]
        rfl

theorem length_encodeChars (b : Bytes) : (encodeChars b).length = 2 * b.length := by
  induction b with
  | nil => rfl
  | cons x b ih =>
    rw [encodeChars, List.length_cons, List.length_cons, List.length_cons, ih]
    omega

theorem encodeChars_lowercase {c : Char} (hc : c ∈ encodeChars b) : IsDigit c ∧ c.toLower = c := by
  induction b with
  | nil => cases hc
  | cons x b ih =>
    have hx := x.toNat_lt
    rw [encodeChars, List.mem_cons, List.mem_cons] at hc
    obtain rfl | rfl | hc := hc
    · exact digit_lowercase _ (by omega)
    · exact digit_lowercase _ (by omega)
    · exact ih hc

theorem exists_encodeChars {n : Nat} (hdigits : ∀ c ∈ cs, IsDigit c) (hlength : cs.length = 2 * n) :
    ∃ b, encodeChars b = cs.map Char.toLower := by
  induction n generalizing cs with
  | zero =>
    rw [List.length_eq_zero_iff.mp hlength]
    exact ⟨[], rfl⟩
  | succ n ih =>
    match cs, hlength with
    | c :: d :: rest, hlength =>
      rw [List.forall_mem_cons, List.forall_mem_cons] at hdigits
      obtain ⟨hc, hd, hdigits⟩ := hdigits
      obtain ⟨hi, hhi, -, hclower⟩ := hc.value
      obtain ⟨lo, hlo, -, hdlower⟩ := hd.value
      obtain ⟨b, hb⟩ := ih hdigits (by simpa [Nat.mul_succ] using hlength)
      refine ⟨UInt8.ofNat (16 * hi + lo) :: b, ?_⟩
      rw [encodeChars, toNat_pair hhi hlo, hb, show (16 * hi + lo) / 16 = hi by omega,
        show (16 * hi + lo) % 16 = lo by omega, hclower, hdlower]
      rfl

/-! ## Hashes -/

structure IsHashText (text : String) : Prop where
  length_eq : text.length = 64
  digits : ∀ c ∈ text.toList, IsDigit c

theorem isHashText_ofList (hlength : cs.length = 64) (hdigits : ∀ c ∈ cs, IsDigit c) : IsHashText (String.ofList cs) :=
  ⟨String.length_ofList.trans hlength, by rwa [String.toList_ofList]⟩

theorem toList_toLower (text : String) : text.toLower.toList = text.toList.map Char.toLower := String.toList_map

theorem toLower_ofList (hlower : cs.map Char.toLower = cs) : (String.ofList cs).toLower = String.ofList cs := by
  rw [← String.toList_inj, toList_toLower, String.toList_ofList, hlower]

theorem utf8ByteSize_digits (hdigits : ∀ c ∈ text.toList, IsDigit c) : text.utf8ByteSize = text.length := by
  rw [← String.ofList_toList (s := text), String.utf8ByteSize_ofList, String.length_ofList]
  generalize text.toList = cs at hdigits
  induction cs with
  | nil => rfl
  | cons c cs ih =>
    rw [List.forall_mem_cons] at hdigits
    have hone : c.utf8Size = 1 := Char.utf8Size_eq_one_iff.mpr (Nat.le_of_lt_succ hdigits.1.code_lt)
    rw [String.utf8Len_cons, ih hdigits.2, hone, List.length_cons]

/-- **Reading hashes.** A text is read as a hash exactly if it has 64 digits and the hash is written as its lowercase
form. -/
theorem decodeHash_eq_ok_iff : decodeHash text = .ok h ↔ IsHashText text ∧ h.hex = text.toLower := by
  have hlower : h.hex = text.toLower ↔ encodeChars h.bytes = text.toList.map Char.toLower := by
    rw [← String.toList_inj, toList_toLower, Hash.hex, encode, String.toList_ofList]
  rw [hlower]
  constructor
  · intro hread
    rw [decodeHash] at hread
    split at hread
    · cases hread
    split at hread
    · cases hread
    rename_i hsize
    split at hread
    · cases hread
    rename_i b hchars
    obtain ⟨hdigits, hwritten⟩ := decodeChars_eq_ok_iff.mp hchars
    split at hread
    · rename_i h' hbytes
      cases hread
      obtain rfl := Hash.ofBytes?_eq_some_iff.mp hbytes
      exact ⟨⟨(utf8ByteSize_digits hdigits).symm.trans (not_not.mp hsize), hdigits⟩, hwritten⟩
    · cases hread
  · rintro ⟨⟨hlength, hdigits⟩, hwritten⟩
    have hsize : text.utf8ByteSize = 64 := (utf8ByteSize_digits hdigits).trans hlength
    rw [decodeHash, hsize, if_neg (by decide), if_neg (by decide), decodeChars_eq_ok_iff.mpr ⟨hdigits, hwritten⟩]
    dsimp only
    rw [Hash.ofBytes?_bytes]

theorem IsHashText.exists_hex (ht : IsHashText text) : ∃ h : Hash, h.hex = text.toLower := by
  have hlength : text.toList.length = 2 * 32 := String.length_toList.trans ht.length_eq
  obtain ⟨b, hb⟩ := exists_encodeChars ht.digits hlength
  have hbytes : b.length = 32 := by
    have hsame := congrArg List.length hb
    rw [length_encodeChars, List.length_map, hlength] at hsame
    omega
  exact ⟨⟨b, hbytes⟩, by rw [Hash.hex, encode, hb, ← toList_toLower, String.ofList_toList]⟩

end Hex

theorem Hash.hex_lowercase (h : Hash) : Hex.IsHashText h.hex ∧ h.hex.toLower = h.hex := by
  have hlength : (Hex.encodeChars h.bytes).length = 64 := by rw [Hex.length_encodeChars, h.length_eq]
  refine ⟨Hex.isHashText_ofList hlength fun c hc => (Hex.encodeChars_lowercase hc).1, Hex.toLower_ofList ?_⟩
  exact (List.map_congr_left fun c hc => (Hex.encodeChars_lowercase hc).2).trans (List.map_id' _)

namespace Hash

variable {text : String} {h : Hash}

/-! ## Display order -/

/-- **Reading in display order.** A text is read exactly if it has 64 digits and the hash is written, in that order, as
its lowercase form. -/
theorem ofDisplay_eq_ok_iff : ofDisplay text = .ok h ↔ Hex.IsHashText text ∧ h.display = text.toLower := by
  rw [display, ← Hex.decodeHash_eq_ok_iff, ofDisplay]
  cases Hex.decodeHash text with
  | error e => simp
  | ok h' =>
    rw [Except.ok.injEq, Except.ok.injEq]
    constructor
    · rintro rfl
      exact (reverse_reverse h').symm
    · rintro rfl
      exact reverse_reverse h

theorem ofDisplay_display (h : Hash) : ofDisplay h.display = .ok h :=
  ofDisplay_eq_ok_iff.mpr ⟨h.reverse.hex_lowercase.1, h.reverse.hex_lowercase.2.symm⟩

theorem exists_ofDisplay_iff : (∃ h, ofDisplay text = .ok h) ↔ Hex.IsHashText text := by
  constructor
  · rintro ⟨h, hread⟩
    exact (ofDisplay_eq_ok_iff.mp hread).1
  · intro ht
    obtain ⟨h, hh⟩ := ht.exists_hex
    refine ⟨h.reverse, ofDisplay_eq_ok_iff.mpr ⟨ht, ?_⟩⟩
    rw [display, reverse_reverse, hh]

end Hash

end HeaderRelay
