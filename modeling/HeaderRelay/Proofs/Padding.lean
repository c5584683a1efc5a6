import HeaderRelay.Channel.Padding
import Mathlib.Data.String.Basic

/-!
# Padded messages

The compact text of an object is as long as its fields, the commas between them and the two braces, so a
field that is put last adds its own length and, unless it is the only one, a comma (`sizeFields_concat`). So
the padding field adds what it is meant to add (`Takes.size_pad`): a message that takes it fills the block in
which it ended, and nothing else of it changes. Every other message stays as it is. From this follow the two
properties that the length of a ciphertext depends on: to pad twice is to pad once, and messages that end in
the same block have one padded length (`padding_fills_block`).
-/
namespace HeaderRelay

/-! ## The length of compact text -/

namespace Json

variable {key : String} {value : Json} {fields rest : List (String × Json)}

def sizeFields (fields : List (String × Json)) : Nat := (textFields fields).utf8ByteSize

def sizeField (key : String) (value : Json) : Nat := (quote key).utf8ByteSize + 1 + value.size

theorem size_obj (fields : List (String × Json)) : (obj fields).size = sizeFields fields + 2 := by
  have hopen : ("\x7b" : String).utf8ByteSize = 1 := by decide
  have hclose : ("\x7d" : String).utf8ByteSize = 1 := by decide
  simp only [size, sizeFields, text, String.utf8ByteSize_append, hopen, hclose]
  omega

@[simp] theorem sizeFields_nil : sizeFields [] = 0 := by simp [sizeFields, textFields]

theorem sizeFields_cons (key : String) (value : Json) (rest : List (String × Json)) :
    sizeFields ((key, value) :: rest) =
      sizeField key value + if rest = [] then 0 else 1 + sizeFields rest := by
  have hcolon : (":" : String).utf8ByteSize = 1 := by decide
  have hcomma : ("," : String).utf8ByteSize = 1 := by decide
  cases rest with
  | nil =>
    simp only [sizeFields, textFields, sizeField, size, String.utf8ByteSize_append, hcolon, if_true]
    omega
  | cons f rest =>
    simp only [sizeFields, textFields, sizeField, size, String.utf8ByteSize_append, hcolon, hcomma,
      List.cons_ne_nil, if_false]
    omega

/-- A field that is put last brings its own length and a comma. -/
theorem sizeFields_concat (key : String) (value : Json) (fields : List (String × Json)) :
    sizeFields (fields ++ [(key, value)]) =
      sizeFields fields + (if fields = [] then 0 else 1) + sizeField key value := by
  induction fields with
  | nil => simp [sizeFields_cons]
  | cons f rest ih =>
    obtain ⟨k, v⟩ := f
    simp only [List.cons_append, sizeFields_cons, ih]
    by_cases hrest : rest = []
    · simp [hrest]
      omega
    · simp [hrest]
      omega

theorem sizeFields_cons_add {n : Nat} {value' : Json} (h : value'.size = value.size + n) :
    sizeFields ((key, value') :: rest) = sizeFields ((key, value) :: rest) + n := by
  simp only [sizeFields_cons, sizeField, h]
  omega

theorem size_str (s : String) : (str s).size = String.utf8Len (s.toList.flatMap escape) + 2 := by
  have hquote : Char.utf8Size '"' = 1 := by decide
  simp only [size, text, quote, String.utf8ByteSize_ofList, String.utf8Len_cons, String.utf8Len_append,
    String.utf8Len_nil, hquote]

end Json

namespace Channel

open Json

variable {blockSize minPadding : Nat} {msg : Json} {key : String} {inner rest : List (String × Json)}

theorem size_spaces (n : Nat) : (str (spaces n)).size = n + 2 := by
  have hescape : escape ' ' = [' '] := by decide
  have hone : Char.utf8Size ' ' = 1 := by decide
  simp only [size_str, spaces, String.toList_ofList]
  induction n with
  | zero => rfl
  | succ n ih =>
    simp only [List.replicate_succ, List.flatMap_cons, hescape, List.singleton_append, String.utf8Len_cons, hone]
    omega

theorem sizeFields_fill (n : Nat) (inner : List (String × Json)) :
    sizeFields (inner ++ [(paddingKey, .str (spaces n))]) = sizeFields inner + paddingCost inner + n := by
  have hkey : (quote paddingKey).utf8ByteSize = 3 := by decide
  rw [sizeFields_concat, sizeField, hkey, size_spaces, paddingCost]
  cases inner with
  | nil => simp; omega
  | cons f rest => simp; omega

/-! ## Messages that take the padding field -/

/-- How many bytes a message lacks of whole blocks. -/
def missing (blockSize : Nat) (msg : Json) : Nat := blockSize - msg.size % blockSize

/-- The message has an object `inner` without padding under its first key, does not fill its last block, and
lacks enough for the configured minimum and for the field. -/
structure Takes (blockSize minPadding : Nat) (msg : Json) (key : String) (inner rest : List (String × Json)) :
    Prop where
  first : msg = .obj ((key, .obj inner) :: rest)
  fresh : "p" ∉ inner.map (·.1)
  partly : msg.size % blockSize ≠ 0
  enough : minPadding ≤ missing blockSize msg
  fits : (if inner = [] then 6 else 7) ≤ missing blockSize msg

theorem paddingCost_eq (inner : List (String × Json)) : paddingCost inner = if inner = [] then 6 else 7 := by
  simp [paddingCost]

theorem any_paddingKey : (inner.any fun f => f.1 == paddingKey) = true ↔ "p" ∈ inner.map (·.1) := by
  simp [paddingKey]

theorem Takes.pad_eq (hblock : 0 < blockSize) (h : Takes blockSize minPadding msg key inner rest) :
    pad blockSize minPadding msg =
      .obj ((key, .obj (inner ++ [("p", .str (spaces (missing blockSize msg - if inner = [] then 6 else 7)))])) ::
        rest) := by
  have hfresh : ¬ (inner.any fun f => f.1 == paddingKey) = true := fun hany => h.fresh (any_paddingKey.mp hany)
  have henough := h.enough
  have hfits := h.fits
  unfold missing at henough hfits
  unfold pad
  rw [if_neg (Nat.ne_of_gt hblock)]
  simp only [if_neg h.partly, if_neg (Nat.not_lt.mpr henough)]
  rw [missing, h.first, fill, if_neg hfresh, if_neg (by rw [paddingCost_eq, ← h.first]; omega), paddingCost_eq]
  rfl

theorem pad_of_not_takes (h : ∀ key inner rest, ¬ Takes blockSize minPadding msg key inner rest) :
    pad blockSize minPadding msg = msg := by
  unfold pad
  split
  · rfl
  dsimp only
  split
  · rfl
  split
  · rfl
  rename_i hpartly henough
  unfold fill
  split
  · rename_i key inner rest
    split
    · rfl
    split
    · rfl
    · rename_i hany hfits
      rw [paddingCost_eq] at hfits
      refine absurd ⟨rfl, fun hmem => hany (any_paddingKey.mpr hmem), hpartly, ?_, ?_⟩ (h key inner rest)
      · unfold missing
        omega
      · unfold missing
        omega
  · rfl

theorem Takes.size_pad (hblock : 0 < blockSize) (h : Takes blockSize minPadding msg key inner rest) :
    (pad blockSize minPadding msg).size = msg.size + missing blockSize msg := by
  have hfits := h.fits
  have hinner : (obj (inner ++ [("p", .str (spaces (missing blockSize msg - if inner = [] then 6 else 7)))])).size =
      (obj inner).size + missing blockSize msg := by
    have hfill := sizeFields_fill (missing blockSize msg - if inner = [] then 6 else 7) inner
    rw [paddingCost_eq] at hfill
    rw [size_obj, size_obj]
    show sizeFields (inner ++ [(paddingKey, _)]) + 2 = _
    omega
  have hmsg : msg.size = sizeFields ((key, obj inner) :: rest) + 2 := by rw [h.first, size_obj]
  rw [h.pad_eq hblock, size_obj, sizeFields_cons_add hinner]
  omega

theorem Takes.size_pad_eq_mul (hblock : 0 < blockSize) (h : Takes blockSize minPadding msg key inner rest) :
    (pad blockSize minPadding msg).size = (msg.size / blockSize + 1) * blockSize := by
  have hlt : msg.size % blockSize < blockSize := Nat.mod_lt _ hblock
  have hdiv : blockSize * (msg.size / blockSize) + msg.size % blockSize = msg.size := Nat.div_add_mod _ _
  rw [h.size_pad hblock, Nat.succ_mul, Nat.mul_comm, missing]
  omega

theorem pad_of_full (h : msg.size % blockSize = 0) : pad blockSize minPadding msg = msg :=
  pad_of_not_takes fun _ _ _ htakes => htakes.partly h

/-- **Padding.** A message that takes the padding field gets it as the last field of the object under its first
key, with as many spaces as are missing besides the field itself, and then ends where its block ends; any
other message is left as it is. So a padded message is not padded again, and padded messages that ended in
the same block are equally long. -/
theorem padding_fills_block (minPadding : Nat) (hblock : 0 < blockSize) (msg : Json) :
    (∀ key inner rest, Takes blockSize minPadding msg key inner rest →
      pad blockSize minPadding msg =
        .obj ((key, .obj (inner ++
          [("p", .str (spaces (missing blockSize msg - if inner = [] then 6 else 7)))])) :: rest) ∧
      (pad blockSize minPadding msg).size = msg.size + missing blockSize msg ∧
      (pad blockSize minPadding msg).size = (msg.size / blockSize + 1) * blockSize) ∧
    ((∀ key inner rest, ¬ Takes blockSize minPadding msg key inner rest) → pad blockSize minPadding msg = msg) ∧
    pad blockSize minPadding (pad blockSize minPadding msg) = pad blockSize minPadding msg ∧
    ∀ msg' : Json, pad blockSize minPadding msg ≠ msg → pad blockSize minPadding msg' ≠ msg' →
      msg.size / blockSize = msg'.size / blockSize →
      (pad blockSize minPadding msg).size = (pad blockSize minPadding msg').size := by
  have htakes : ∀ m : Json, pad blockSize minPadding m ≠ m →
      ∃ key inner rest, Takes blockSize minPadding m key inner rest := by
    intro m hm
    by_contra hnone
    push Not at hnone
    exact hm (pad_of_not_takes hnone)
  refine ⟨fun key inner rest h => ⟨h.pad_eq hblock, h.size_pad hblock, h.size_pad_eq_mul hblock⟩,
    pad_of_not_takes, ?_, ?_⟩
  · by_cases hsame : pad blockSize minPadding msg = msg
    · rw [hsame, hsame]
    · obtain ⟨key, inner, rest, h⟩ := htakes msg hsame
      apply pad_of_full
      rw [h.size_pad_eq_mul hblock]
      exact Nat.mul_mod_left _ _
  · intro msg' hmsg hmsg' hsame
    obtain ⟨_, _, _, h⟩ := htakes msg hmsg
    obtain ⟨_, _, _, h'⟩ := htakes msg' hmsg'
    rw [h.size_pad_eq_mul hblock, h'.size_pad_eq_mul hblock, hsame]

/-- A message of 25 bytes fills 32: the field goes into the first object and takes all seven bytes. -/
theorem snug_message_filled :
    0 < 32 ∧ Takes 32 7 (.obj [("a", .obj [("b", .nat 1)]), ("c", .str "dé\n")]) "a" [("b", .nat 1)]
      [("c", .str "dé\n")] ∧
    pad 32 7 (.obj [("a", .obj [("b", .nat 1)]), ("c", .str "dé\n")]) =
      .obj [("a", .obj [("b", .nat 1), ("p", .str "")]), ("c", .str "dé\n")] ∧
    (pad 32 7 (.obj [("a", .obj [("b", .nat 1)]), ("c", .str "dé\n")])).size = 32 := by
  have htakes : Takes 32 7 (.obj [("a", .obj [("b", .nat 1)]), ("c", .str "dé\n")]) "a" [("b", .nat 1)]
      [("c", .str "dé\n")] := ⟨rfl, by decide, by decide +kernel, by decide +kernel, by decide +kernel⟩
  have hpadded := (padding_fills_block 7 (by decide : 0 < 32) _).1 _ _ _ htakes
  have hsize : (Json.obj [("a", .obj [("b", .nat 1)]), ("c", .str "dé\n")]).size = 25 := by decide +kernel
  refine ⟨by decide, htakes, ?_, ?_⟩
  · rw [hpadded.1]
    simp [missing, hsize, spaces]
  · rw [hpadded.2.2, hsize]

end Channel

end HeaderRelay
