import HeaderRelay.Consensus.TxResult
import Mathlib.Algebra.Group.Nat.Defs

/-!
# Reading committed results

What the committed form of a transaction result holds can be read back from its bytes. The reader knows nothing
of results but the tags: it takes the bytes apart into fields (`readFields?`), each a number or bytes under a
tag, and looks the four values up among them (`Committed.ofFields`), where a field that is absent has its zero
value and of several with one tag the last counts.

Results:
* `readVarint?_varint`, `readField?_wire`, `readFields?_wires`: numbers, fields and sequences of fields are read
  back as they were written, whatever bytes follow and whatever bytes the data are.
* `TxResult.encode_eq`: the committed form is the sequence of the fields whose values are not zero, in ascending
  order of their tags.
* `committed_form_decodes`: the reader gives back the code, the data and both gas values of every result, so the
  committed forms of two results are equal exactly if these are.
-/
namespace HeaderRelay.Consensus

/-! ## Numbers -/

/-- The number in base 128 at the start of the bytes, and the bytes after it. -/
def readVarint? : Bytes → Option (Nat × Bytes)
  | [] => none
  | b :: rest =>
    if b.toNat < 128 then some (b.toNat, rest)
    else (readVarint? rest).map fun (n, rest) => (b.toNat - 128 + 128 * n, rest)

theorem readVarint?_shortens {b rest : Bytes} {n : Nat} (h : readVarint? b = some (n, rest)) :
    rest.length < b.length := by
  induction b generalizing n with
  | nil => cases h
  | cons x b ih =>
    rw [readVarint?] at h
    split at h
    · cases h
      exact Nat.lt_succ_self _
    · obtain ⟨⟨m, rest'⟩, hread, heq⟩ := Option.map_eq_some_iff.mp h
      cases heq
      exact Nat.lt_succ_of_lt (ih hread)

theorem toNat_ofNat_byte {n : Nat} (h : n < 256) : (UInt8.ofNat n).toNat = n := by
  rw [UInt8.toNat_ofNat', Nat.mod_eq_of_lt h]

theorem readVarint?_varintDigits {fuel n : Nat} (rest : Bytes) (h : n < 128 ^ (fuel + 1)) :
    readVarint? (varintDigits (fuel + 1) n ++ rest) = some (n, rest) := by
  induction fuel generalizing n with
  | zero =>
    have hn : n < 128 := h
    have hdigit : (UInt8.ofNat n).toNat = n := toNat_ofNat_byte (by omega)
    rw [varintDigits, if_pos hn, List.singleton_append, readVarint?, hdigit, if_pos hn]
  | succ fuel ih =>
    rw [varintDigits]
    split
    · rename_i hn
      have hdigit : (UInt8.ofNat n).toNat = n := toNat_ofNat_byte (by omega)
      rw [List.singleton_append, readVarint?, hdigit, if_pos hn]
    · have hdigit : (UInt8.ofNat (128 + n % 128)).toNat = 128 + n % 128 := toNat_ofNat_byte (by omega)
      have hrest : n / 128 < 128 ^ (fuel + 1) := by
        rw [Nat.pow_succ] at h
        exact Nat.div_lt_of_lt_mul (by omega)
      rw [List.cons_append, readVarint?, hdigit, if_neg (by omega), ih hrest, Option.map_some]
      exact congrArg (fun m => some (m, rest)) (by omega)

theorem readVarint?_varint {n : Nat} (rest : Bytes) (h : n < twoPow 64) :
    readVarint? (varint n ++ rest) = some (n, rest) :=
  readVarint?_varintDigits rest (Nat.lt_trans h (by decide))

/-! ## Fields -/

inductive Field where
  | number (tag n : Nat)
  | bytes (tag : Nat) (b : Bytes)
  deriving DecidableEq

namespace Field

/-- The bytes of a field: its key, which is the tag with the kind of the value, and the value. -/
def wire : Field → Bytes
  | .number tag n => varint (8 * tag) ++ varint n
  | .bytes tag b => varint (8 * tag + 2) ++ varint b.length ++ b

def isZero : Field → Bool
  | .number _ n => n = 0
  | .bytes _ b => b.isEmpty

/-- Key, number and length are numbers of 64 bits. -/
def Fits : Field → Prop
  | .number tag n => 8 * tag < twoPow 64 ∧ n < twoPow 64
  | .bytes tag b => 8 * tag + 2 < twoPow 64 ∧ b.length < twoPow 64

def number? (tag : Nat) : Field → Option Nat
  | .number t n => if t = tag then some n else none
  | .bytes .. => none

def bytes? (tag : Nat) : Field → Option Bytes
  | .number .. => none
  | .bytes t b => if t = tag then some b else none

@[simp] theorem isZero_number (tag n : Nat) : (number tag n).isZero = decide (n = 0) := rfl

@[simp] theorem isZero_bytes (tag : Nat) (b : Bytes) : (bytes tag b).isZero = b.isEmpty := rfl

@[simp] theorem number?_number (tag t n : Nat) : number? tag (number t n) = if t = tag then some n else none := rfl

@[simp] theorem number?_bytes (tag t : Nat) (b : Bytes) : number? tag (bytes t b) = none := rfl

@[simp] theorem bytes?_number (tag t n : Nat) : bytes? tag (number t n) = none := rfl

@[simp] theorem bytes?_bytes (tag t : Nat) (b : Bytes) :
    bytes? tag (bytes t b) = if t = tag then some b else none := rfl

end Field

/-- The field at the start of the bytes, and the bytes after it. -/
def readField? (b : Bytes) : Option (Field × Bytes) :=
  match readVarint? b with
  | none => none
  | some (key, b) =>
    match readVarint? b with
    | none => none
    | some (n, b) =>
      if key % 8 = 0 then some (.number (key / 8) n, b)
      else if key % 8 = 2 ∧ n ≤ b.length then some (.bytes (key / 8) (b.take n), b.drop n)
      else none

theorem readField?_shortens {b rest : Bytes} {f : Field} (h : readField? b = some (f, rest)) :
    rest.length < b.length := by
  unfold readField? at h
  split at h
  · cases h
  · rename_i key b₁ hkey
    have hlt₁ := readVarint?_shortens hkey
    split at h
    · cases h
    · rename_i n b₂ hn
      have hlt₂ := readVarint?_shortens hn
      split at h
      · cases h
        omega
      · split at h
        · cases h
          rw [List.length_drop]
          omega
        · cases h

theorem readField?_wire {f : Field} (rest : Bytes) (h : f.Fits) : readField? (f.wire ++ rest) = some (f, rest) := by
  cases f with
  | number tag n =>
    obtain ⟨htag, hn⟩ := h
    rw [Field.wire, List.append_assoc, readField?, readVarint?_varint _ htag]
    dsimp only
    rw [readVarint?_varint _ hn]
    dsimp only
    rw [if_pos (by omega), show 8 * tag / 8 = tag by omega]
  | bytes tag b =>
    obtain ⟨htag, hlength⟩ := h
    rw [Field.wire, List.append_assoc, List.append_assoc, readField?, readVarint?_varint _ htag]
    dsimp only
    rw [readVarint?_varint _ hlength]
    dsimp only
    have hle : b.length ≤ (b ++ rest).length := by
      rw [List.length_append]
      omega
    rw [if_neg (by omega), if_pos ⟨by omega, hle⟩, show (8 * tag + 2) / 8 = tag by omega, List.take_left,
      List.drop_left]

/-- The fields that the bytes are the sequence of. -/
def readFields? (b : Bytes) : Option (List Field) :=
  if b = [] then some []
  else
    match hread : readField? b with
    | none => none
    | some (f, rest) =>
      have : rest.length < b.length := readField?_shortens hread
      (readFields? rest).map (f :: ·)
termination_by b.length

theorem readFields?_wires {fs : List Field} (h : ∀ f ∈ fs, f.Fits) : readFields? (fs.flatMap Field.wire) = some fs := by
  induction fs with
  | nil =>
    rw [readFields?]
    rfl
  | cons f fs ih =>
    obtain ⟨hf, hfs⟩ := List.forall_mem_cons.mp h
    have hread := readField?_wire (fs.flatMap Field.wire) hf
    have hne : f.wire ++ fs.flatMap Field.wire ≠ [] := by
      intro hnil
      rw [hnil] at hread
      cases hread
    rw [List.flatMap_cons, readFields?, if_neg hne]
    split
    · rename_i hnone
      cases hread.symm.trans hnone
    · rename_i f' rest hsome
      cases hread.symm.trans hsome
      rw [ih hfs, Option.map_some]

/-! ## Results -/

/-- The signed number with the bits of an unsigned one of 64 bits. -/
def signed (n : Nat) : Int := if n < twoPow 63 then n else n - twoPow 64

theorem twosComplement_lt (n : Int) : twosComplement n < twoPow 64 := by
  have hpow : ((twoPow 64 : Nat) : Int) = 18446744073709551616 := rfl
  have hpow' : twoPow 64 = 18446744073709551616 := rfl
  rw [twosComplement, hpow, hpow']
  omega

theorem signed_twosComplement {n : Int} (hlow : -(twoPow 63 : Nat) ≤ n) (hhigh : n < twoPow 63) :
    signed (twosComplement n) = n := by
  have hpow : ((twoPow 64 : Nat) : Int) = 18446744073709551616 := rfl
  have hhalf : twoPow 63 = 9223372036854775808 := rfl
  rw [hhalf] at hlow hhigh
  unfold signed twosComplement
  rw [hpow, hhalf]
  split <;> omega

/-- What a block commits to of a result. -/
structure Committed where
  code : Nat
  data : Bytes
  gasWanted : Int
  gasUsed : Int
  deriving DecidableEq

def TxResult.committed (r : TxResult) : Committed := ⟨r.code, r.data, r.gasWanted, r.gasUsed⟩

/-- The values are of their types: a code of 32 bits, gas values of 64 bits with a sign, and data whose length is
a number of 64 bits. -/
structure TxResult.InRange (r : TxResult) : Prop where
  code : r.code < twoPow 32
  data : r.data.length < twoPow 64
  gasWanted : -(twoPow 63 : Nat) ≤ r.gasWanted ∧ r.gasWanted < twoPow 63
  gasUsed : -(twoPow 63 : Nat) ≤ r.gasUsed ∧ r.gasUsed < twoPow 63

def TxResult.fields (r : TxResult) : List Field :=
  [.number 1 r.code, .bytes 2 r.data, .number 5 (twosComplement r.gasWanted), .number 6 (twosComplement r.gasUsed)]

theorem TxResult.InRange.fits {r : TxResult} (h : r.InRange) : ∀ f ∈ r.fields, f.Fits := by
  have htag : ∀ tag < 8, 8 * tag + 2 < twoPow 64 := by
    have hpow : twoPow 64 = 18446744073709551616 := rfl
    omega
  have hcode : r.code < twoPow 64 := Nat.lt_trans h.code (by decide)
  simp only [fields, List.forall_mem_cons]
  exact ⟨⟨Nat.lt_of_succ_lt (Nat.lt_of_succ_lt (htag 1 (by decide))), hcode⟩, ⟨htag 2 (by decide), h.data⟩,
    ⟨by decide, twosComplement_lt _⟩, ⟨by decide, twosComplement_lt _⟩, by simp⟩

/-- The fields that are written. -/
def written (fs : List Field) : List Field := fs.filter (!·.isZero)

theorem written_cons (f : Field) (fs : List Field) :
    written (f :: fs) = if f.isZero then written fs else f :: written fs := by
  rw [written, List.filter_cons]
  cases f.isZero <;> rfl

theorem mem_of_mem_written {fs : List Field} {f : Field} (h : f ∈ written fs) : f ∈ fs := (List.mem_filter.mp h).1

theorem flatMap_written (fs : List Field) :
    (written fs).flatMap Field.wire = fs.flatMap fun f => if f.isZero then [] else f.wire := by
  induction fs with
  | nil => rfl
  | cons f fs ih =>
    rw [written_cons, List.flatMap_cons, ← ih]
    cases f.isZero <;> rfl

/-- The committed form are the fields that are not zero, in ascending order of their tags. -/
theorem TxResult.encode_eq (r : TxResult) : r.encode = (written r.fields).flatMap Field.wire := by
  rw [flatMap_written]
  simp [encode, fields, varintField, bytesField, Field.isZero, Field.wire]

/-! ## Looking values up -/

/-- The number under a tag: the last of them, zero if there is none. -/
def numberAt (tag : Nat) (fs : List Field) : Nat := ((fs.filterMap (Field.number? tag)).getLast?).getD 0

/-- The bytes under a tag: the last of them, none if there are none. -/
def bytesAt (tag : Nat) (fs : List Field) : Bytes := ((fs.filterMap (Field.bytes? tag)).getLast?).getD []

theorem filterMap_number?_written (tag : Nat) (fs : List Field) :
    (written fs).filterMap (Field.number? tag) = (fs.filterMap (Field.number? tag)).filter (· ≠ 0) := by
  induction fs with
  | nil => rfl
  | cons f fs ih =>
    rw [written_cons]
    cases f with
    | number t n => by_cases htag : t = tag <;> by_cases hzero : n = 0 <;> simp [htag, hzero, ih]
    | bytes t b => by_cases hzero : b = [] <;> simp [List.filterMap_cons, hzero, ih]

theorem filterMap_bytes?_written (tag : Nat) (fs : List Field) :
    (written fs).filterMap (Field.bytes? tag) = (fs.filterMap (Field.bytes? tag)).filter (· ≠ []) := by
  induction fs with
  | nil => rfl
  | cons f fs ih =>
    rw [written_cons]
    cases f with
    | number t n => by_cases hzero : n = 0 <;> simp [List.filterMap_cons, hzero, ih]
    | bytes t b => by_cases htag : t = tag <;> by_cases hzero : b = [] <;> simp [htag, hzero, ih]

/-- Of a field that is left out the value is the one that it would have had. -/
theorem numberAt_written {tag n : Nat} {fs : List Field} (h : fs.filterMap (Field.number? tag) = [n]) :
    numberAt tag (written fs) = n := by
  rw [numberAt, filterMap_number?_written, h]
  by_cases hzero : n = 0 <;> simp [hzero]

theorem bytesAt_written {tag : Nat} {b : Bytes} {fs : List Field} (h : fs.filterMap (Field.bytes? tag) = [b]) :
    bytesAt tag (written fs) = b := by
  rw [bytesAt, filterMap_bytes?_written, h]
  by_cases hzero : b = [] <;> simp [hzero]

namespace Committed

def ofFields (fs : List Field) : Committed :=
  ⟨numberAt 1 fs, bytesAt 2 fs, signed (numberAt 5 fs), signed (numberAt 6 fs)⟩

/-- What the bytes commit to, if they are a sequence of fields. -/
def decode? (b : Bytes) : Option Committed := (readFields? b).map ofFields

theorem decode?_encode {r : TxResult} (h : r.InRange) : decode? r.encode = some r.committed := by
  have hread : readFields? r.encode = some (written r.fields) := by
    rw [r.encode_eq]
    exact readFields?_wires fun f hf => h.fits f (mem_of_mem_written hf)
  have hcode : numberAt 1 (written r.fields) = r.code := numberAt_written rfl
  have hdata : bytesAt 2 (written r.fields) = r.data := bytesAt_written rfl
  have hwanted : numberAt 5 (written r.fields) = twosComplement r.gasWanted := numberAt_written rfl
  have hused : numberAt 6 (written r.fields) = twosComplement r.gasUsed := numberAt_written rfl
  rw [decode?, hread, Option.map_some, ofFields, hcode, hdata, hwanted, hused,
    signed_twosComplement h.gasWanted.1 h.gasWanted.2, signed_twosComplement h.gasUsed.1 h.gasUsed.2]
  rfl

end Committed

/-- **Committed forms.** One reader gives back what is committed to of every result. So two results have the same
committed form exactly if their code, their data and their gas values are the same, whatever else they hold. -/
theorem committed_form_decodes :
    (∀ r : TxResult, r.InRange →
      Committed.decode? r.encode = some ⟨r.code, r.data, r.gasWanted, r.gasUsed⟩) ∧
    ∀ r r' : TxResult, r.InRange → r'.InRange →
      (r.encode = r'.encode ↔
        r.code = r'.code ∧ r.data = r'.data ∧ r.gasWanted = r'.gasWanted ∧ r.gasUsed = r'.gasUsed) := by
  refine ⟨fun r h => Committed.decode?_encode h, fun r r' h h' => ⟨fun heq => ?_, ?_⟩⟩
  · have hread := Committed.decode?_encode h
    rw [heq, Committed.decode?_encode h'] at hread
    cases r
    cases r'
    cases hread
    exact ⟨rfl, rfl, rfl, rfl⟩
  · rintro ⟨hcode, hdata, hwanted, hused⟩
    rw [TxResult.encode, TxResult.encode, hcode, hdata, hwanted, hused]

/-- A result that costs less than nothing, whose data are the bytes of a field of gas and begin like its end. -/
def oddResult : TxResult := ⟨7, [0x28, 0x01, 0x30, 0x00], "log", "", -1, -(twoPow 63 : Nat), "sdk"⟩

/-- It is read back, and its log, its info and its codespace do not show. -/
theorem odd_result_decodes : oddResult.InRange ∧
    Committed.decode? oddResult.encode = some ⟨7, [0x28, 0x01, 0x30, 0x00], -1, -9223372036854775808⟩ ∧
    oddResult.encode = { oddResult with log := "", info := "x", codespace := "" }.encode := by
  have hrange : oddResult.InRange := ⟨by decide, by decide, by decide, by decide⟩
  have hrange' : { oddResult with log := "", info := "x", codespace := "" }.InRange :=
    ⟨by decide, by decide, by decide, by decide⟩
  exact ⟨hrange, committed_form_decodes.1 _ hrange,
    (committed_form_decodes.2 _ _ hrange hrange').mpr ⟨rfl, rfl, rfl, rfl⟩⟩

end HeaderRelay.Consensus
