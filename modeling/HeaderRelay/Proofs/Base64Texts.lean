import HeaderRelay.Consensus.ProofWire
import Mathlib.Logic.Basic

/-!
# The texts that base64 reading takes

Reading is strict, so every byte string has one text: what is read is what writing the bytes gives back
(`Base64.decode?_eq_some_iff`). The alphabet and its values are inverse to each other (`symbolValue?_eq_some_iff`),
hence so are groups of four characters and of three bytes; in a short last group the characters hold bits that no byte
takes, and they must be the zeros that writing puts there. The fill is no character of the alphabet, so a group that
has it is the last one.

For hashes: a text is read exactly if it is the text of a hash, and of that one (`Consensus.hashOfText_eq_ok_iff`).
-/
namespace HeaderRelay

namespace Base64

variable {c p q r s : Char} {cs : List Char} {b g : Bytes} {text : String} {n : Nat}

/-! ## The alphabet -/

theorem symbolValue?_symbol : ∀ n < 64, symbolValue? (symbol n) = some n ∧ symbol n ≠ '=' := by decide

theorem value_symbol (hn : n < 64) : symbolValue? (symbol n) = some n := (symbolValue?_symbol n hn).1

theorem symbol_ne_fill (hn : n < 64) : symbol n ≠ '=' := (symbolValue?_symbol n hn).2

theorem symbol_table : ∀ code < 128, ∀ n ∈ symbolValue? (Char.ofNat code), n < 64 ∧ symbol n = Char.ofNat code := by
  decide +kernel

theorem code_lt_of_symbolValue? (h : symbolValue? c = some n) : c.toNat < 128 := by
  have hcode {d : Char} (hle : c ≤ d) (hd : d.toNat < 128) : c.toNat < 128 := Nat.lt_of_le_of_lt hle hd
  rw [symbolValue?] at h
  split at h
  · rename_i hletter
    exact hcode hletter.2 (by decide)
  split at h
  · rename_i hletter
    exact hcode hletter.2 (by decide)
  split at h
  · rename_i hdigit
    exact hcode hdigit.2 (by decide)
  split at h
  · rename_i hplus
    exact hplus ▸ (by decide)
  split at h
  · rename_i hslash
    exact hslash ▸ (by decide)
  · cases h

theorem symbolValue?_eq_some_iff : symbolValue? c = some n ↔ n < 64 ∧ symbol n = c := by
  constructor
  · intro h
    have htable := symbol_table c.toNat (code_lt_of_symbolValue? h)
    rw [Char.ofNat_toNat] at htable
    exact htable n h
  · rintro ⟨hn, rfl⟩
    exact value_symbol hn

/-! ## Groups -/

theorem ofNat_eq_of_toNat {x : UInt8} (h : n = x.toNat) : UInt8.ofNat n = x := h ▸ UInt8.ofNat_toNat

/-- A full group is read exactly if it is the writing of three bytes. -/
theorem fullGroup?_eq_some_iff :
    fullGroup? p q r s = some g ↔ ∃ x y z, g = [x, y, z] ∧ encodeChars g = [p, q, r, s] := by
  constructor
  · intro h
    simp only [fullGroup?, bind, Option.bind_eq_some_iff, Option.some_inj] at h
    obtain ⟨a, ha, b, hb, c, hc, d, hd, rfl⟩ := h
    obtain ⟨ha, rfl⟩ := symbolValue?_eq_some_iff.mp ha
    obtain ⟨hb, rfl⟩ := symbolValue?_eq_some_iff.mp hb
    obtain ⟨hc, rfl⟩ := symbolValue?_eq_some_iff.mp hc
    obtain ⟨hd, rfl⟩ := symbolValue?_eq_some_iff.mp hd
    refine ⟨_, _, _, rfl, ?_⟩
    simp only [encodeChars, UInt8.toNat_ofNat', List.cons.injEq, and_true]
    exact ⟨congrArg symbol (by omega), congrArg symbol (by omega), congrArg symbol (by omega),
      congrArg symbol (by omega)⟩
  · rintro ⟨x, y, z, rfl, hwritten⟩
    have hx := x.toNat_lt
    have hy := y.toNat_lt
    have hz := z.toNat_lt
    cases hwritten
    rw [fullGroup?, value_symbol (by omega), value_symbol (by omega), value_symbol (by omega), value_symbol (by omega)]
    simp only [bind, Option.bind_some, Option.some_inj, List.cons.injEq, and_true]
    exact ⟨ofNat_eq_of_toNat (by omega), ofNat_eq_of_toNat (by omega), ofNat_eq_of_toNat (by omega)⟩

theorem lastGroup?_one_iff : lastGroup? p q '=' '=' = some g ↔ ∃ x, g = [x] ∧ encodeChars g = [p, q, '=', '='] := by
  constructor
  · intro h
    simp only [lastGroup?, if_true, bind, Option.bind_eq_some_iff, Option.ite_none_right_eq_some, Option.some_inj] at h
    obtain ⟨a, ha, b, hb, hbits, rfl⟩ := h
    obtain ⟨ha, rfl⟩ := symbolValue?_eq_some_iff.mp ha
    obtain ⟨hb, rfl⟩ := symbolValue?_eq_some_iff.mp hb
    refine ⟨_, rfl, ?_⟩
    simp only [encodeChars, UInt8.toNat_ofNat', List.cons.injEq, and_true]
    exact ⟨congrArg symbol (by omega), congrArg symbol (by omega)⟩
  · rintro ⟨x, rfl, hwritten⟩
    have hx := x.toNat_lt
    cases hwritten
    rw [lastGroup?, if_pos rfl, value_symbol (by omega), value_symbol (by omega)]
    simp only [if_true, bind, Option.bind_some]
    rw [if_pos (by omega), Option.some_inj, List.cons.injEq]
    exact ⟨ofNat_eq_of_toNat (by omega), rfl⟩

theorem lastGroup?_two_iff (hr : r ≠ '=') :
    lastGroup? p q r '=' = some g ↔ ∃ x y, g = [x, y] ∧ encodeChars g = [p, q, r, '='] := by
  constructor
  · intro h
    simp only [lastGroup?, if_true, if_neg hr, bind, Option.bind_eq_some_iff, Option.ite_none_right_eq_some,
      Option.some_inj] at h
    obtain ⟨a, ha, b, hb, c, hc, hbits, rfl⟩ := h
    obtain ⟨ha, rfl⟩ := symbolValue?_eq_some_iff.mp ha
    obtain ⟨hb, rfl⟩ := symbolValue?_eq_some_iff.mp hb
    obtain ⟨hc, rfl⟩ := symbolValue?_eq_some_iff.mp hc
    refine ⟨_, _, rfl, ?_⟩
    simp only [encodeChars, UInt8.toNat_ofNat', List.cons.injEq, and_true]
    exact ⟨congrArg symbol (by omega), congrArg symbol (by omega), congrArg symbol (by omega)⟩
  · rintro ⟨x, y, rfl, hwritten⟩
    have hx := x.toNat_lt
    have hy := y.toNat_lt
    cases hwritten
    rw [lastGroup?, if_pos rfl, value_symbol (by omega), value_symbol (by omega)]
    simp only [bind, Option.bind_some, if_neg hr]
    rw [value_symbol (by omega), Option.bind_some, if_pos (by omega), Option.some_inj, List.cons.injEq, List.cons.injEq]
    exact ⟨ofNat_eq_of_toNat (by omega), ofNat_eq_of_toNat (by omega), rfl⟩

/-! ## Texts -/

theorem length_encodeChars (b : Bytes) : (encodeChars b).length = 4 * ((b.length + 2) / 3) := by
  fun_induction encodeChars b with
  | case1 => rfl
  | case2 x => simp
  | case3 x y => simp
  | case4 x y z rest ih =>
    simp only [List.length_cons, ih]
    omega

/-- Four characters are the writing of one, two or three bytes, with the fill that belongs to so many. -/
theorem encodeChars_eq_group (h : encodeChars b = [p, q, r, s]) :
    ((∃ x, b = [x]) ∧ r = '=' ∧ s = '=') ∨ ((∃ x y, b = [x, y]) ∧ r ≠ '=' ∧ s = '=') ∨
      ((∃ x y z, b = [x, y, z]) ∧ s ≠ '=') := by
  match b with
  | [] => cases h
  | [x] =>
    cases h
    exact .inl ⟨⟨x, rfl⟩, rfl, rfl⟩
  | [x, y] =>
    cases h
    exact .inr (.inl ⟨⟨x, y, rfl⟩, symbol_ne_fill (by omega), rfl⟩)
  | [x, y, z] =>
    cases h
    exact .inr (.inr ⟨⟨x, y, z, rfl⟩, symbol_ne_fill (by omega)⟩)
  | x :: y :: z :: w :: rest =>
    have hlength := congrArg List.length h
    rw [length_encodeChars] at hlength
    simp only [List.length_cons, List.length_nil] at hlength
    omega

theorem lastGroup?_eq_some_iff : lastGroup? p q r s = some g ↔ encodeChars g = [p, q, r, s] := by
  by_cases hs : s = '='
  · subst hs
    by_cases hr : r = '='
    · subst hr
      rw [lastGroup?_one_iff]
      refine ⟨fun ⟨x, _, h⟩ => h, fun h => ?_⟩
      obtain ⟨⟨x, hx⟩, -⟩ | ⟨-, hr, -⟩ | ⟨-, hs⟩ := encodeChars_eq_group h
      · exact ⟨x, hx, h⟩
      · exact absurd rfl hr
      · exact absurd rfl hs
    · rw [lastGroup?_two_iff hr]
      refine ⟨fun ⟨x, y, _, h⟩ => h, fun h => ?_⟩
      obtain ⟨-, hr', -⟩ | ⟨⟨x, y, hxy⟩, -⟩ | ⟨-, hs⟩ := encodeChars_eq_group h
      · exact absurd hr' hr
      · exact ⟨x, y, hxy, h⟩
      · exact absurd rfl hs
  · rw [lastGroup?, if_neg hs, fullGroup?_eq_some_iff]
    refine ⟨fun ⟨x, y, z, _, h⟩ => h, fun h => ?_⟩
    obtain ⟨-, -, hs'⟩ | ⟨-, -, hs'⟩ | ⟨⟨x, y, z, hxyz⟩, -⟩ := encodeChars_eq_group h
    · exact absurd hs' hs
    · exact absurd hs' hs
    · exact ⟨x, y, z, hxyz, h⟩

/-- **Strict reading.** Characters are read as bytes exactly if they are what is written for them. -/
theorem decodeChars_eq_some_iff : decodeChars cs = some b ↔ encodeChars b = cs := by
  fun_induction decodeChars cs generalizing b with
  | case1 =>
    rw [Option.some_inj]
    constructor
    · rintro rfl
      rfl
    · intro h
      have hlength := congrArg List.length h
      rw [length_encodeChars, List.length_nil] at hlength
      exact (List.length_eq_zero_iff.mp (by omega)).symm
  | case2 p q r s => exact lastGroup?_eq_some_iff
  | case3 p q r s rest hrest ih =>
    simp only [bind, Option.bind_eq_some_iff, fullGroup?_eq_some_iff, ih, Option.some_inj]
    constructor
    · rintro ⟨g, ⟨x, y, z, rfl, hgroup⟩, tail, htail, rfl⟩
      cases hgroup
      exact congrArg (symbol _ :: symbol _ :: symbol _ :: symbol _ :: ·) htail
    · intro h
      match b with
      | [] => cases h
      | [x] =>
        cases h
        exact absurd rfl hrest
      | [x, y] =>
        cases h
        exact absurd rfl hrest
      | x :: y :: z :: tail =>
        cases h
        exact ⟨[x, y, z], ⟨x, y, z, rfl, rfl⟩, tail, rfl, rfl⟩
  | case4 cs hnil hgroup hmore =>
    -- one, two or three characters; what is written are groups of four
    refine iff_of_false (by simp) fun h => ?_
    have hlength := congrArg List.length h
    rw [length_encodeChars] at hlength
    match cs with
    | [] => exact hnil rfl
    | [c] | [c, d] | [c, d, e] =>
      simp only [List.length_cons, List.length_nil] at hlength
      omega
    | p :: q :: r :: s :: rest => exact hmore p q r s rest rfl

/-- **One text for every byte string.** A text is read exactly if it is the writing of what is read. -/
theorem decode?_eq_some_iff : decode? text = some b ↔ encode b = text := by
  rw [decode?, decodeChars_eq_some_iff, encode, ← String.toList_inj, String.toList_ofList]

example : decode? "QQ==" = some [65] ∧ decode? "QR==" = none ∧ decode? "QQ=" = none := by decide +kernel

end Base64

namespace Consensus

variable {text : String} {b : Bytes} {h : Hash} {e : RelayError}

theorem hashOfText_eq_ok_iff : hashOfText text = .ok h ↔ hashText h = text := by
  rw [hashText, ← Base64.decode?_eq_some_iff, hashOfText]
  cases Base64.decode? text with
  | none => simp
  | some b =>
    rw [Option.some_inj, ← Hash.ofBytes?_eq_some_iff]
    dsimp only
    cases Hash.ofBytes? b <;> simp

/-- A text of fewer or more bytes than a hash has is refused, with their number. -/
theorem hashOfText_misfit (hread : Base64.decode? text = some b) (hlength : b.length ≠ 32) :
    hashOfText text = .error (.serialization s!"expected 32 bytes, got {b.length}") := by
  rw [hashOfText, hread]
  dsimp only
  rw [Hash.ofBytes?, dif_neg hlength]

theorem hashOfText_error (he : hashOfText text = .error e) : ∃ reason, e = .serialization reason := by
  rw [hashOfText] at he
  split at he
  · cases he
    exact ⟨_, rfl⟩
  split at he
  · cases he
  · cases he
    exact ⟨_, rfl⟩

end Consensus

end HeaderRelay
