import HeaderRelay.Proofs.Base64Texts
import HeaderRelay.Proofs.HexTexts

/-!
# Proofs as texts

A proof travels to a contract with every hash as a text, and comes back. What is read of each text carries over to the
whole, since a list of texts is read exactly if each of them is (`mapM_eq_ok_iff`).

Results:
* `Bitcoin.MerkleProof.display_texts_read`: a Bitcoin proof is read back, and what is read is written as it stood, but
  for the case of its digits.
* `Consensus.MerkleProof.base64_texts_read`: a consensus-chain proof is read back, and what is read is written exactly
  as it stood.
-/
namespace HeaderRelay

/-! ## Lists of texts -/

section Lists

variable {α β γ : Type}

theorem bind_eq_ok_iff {x : Relayed α} {f : α → Relayed β} {b : β} :
    (x >>= f) = .ok b ↔ ∃ a, x = .ok a ∧ f a = .ok b := by
  cases x <;> simp [bind, Except.bind]

theorem bind_eq_error_iff {x : Relayed α} {f : α → Relayed β} {e : RelayError} :
    (x >>= f) = .error e ↔ x = .error e ∨ ∃ a, x = .ok a ∧ f a = .error e := by
  cases x <;> simp [bind, Except.bind]

theorem pure_eq_ok_iff {a b : α} : (pure a : Relayed α) = .ok b ↔ a = b := by simp [pure, Except.pure]

variable {read : α → Relayed β}

/-- A reader of what has a property, whose results are written as the normal form of what was read, is such a reader of
lists as well. -/
theorem mapM_eq_ok_iff {write : β → γ} {normal : α → γ} {P : α → Prop}
    (hread : ∀ {x y}, read x = .ok y ↔ P x ∧ write y = normal x) {xs : List α} {ys : List β} :
    xs.mapM read = .ok ys ↔ (∀ x ∈ xs, P x) ∧ ys.map write = xs.map normal := by
  induction xs generalizing ys with
  | nil => cases ys <;> simp [pure, Except.pure]
  | cons x xs ih =>
    simp only [List.mapM_cons, bind_eq_ok_iff, pure_eq_ok_iff, hread, ih, List.forall_mem_cons, List.map_cons]
    constructor
    · rintro ⟨y, ⟨hP, hy⟩, tail, ⟨hPs, htail⟩, rfl⟩
      exact ⟨⟨hP, hPs⟩, by rw [List.map_cons, hy, htail]⟩
    · rintro ⟨⟨hP, hPs⟩, hys⟩
      cases ys with
      | nil => cases hys
      | cons y tail =>
        obtain ⟨hy, htail⟩ := List.cons.inj hys
        exact ⟨y, ⟨hP, hy⟩, tail, ⟨hPs, htail⟩, rfl⟩

theorem exists_mapM_of_forall {xs : List α} (h : ∀ x ∈ xs, ∃ y, read x = .ok y) : ∃ ys, xs.mapM read = .ok ys := by
  induction xs with
  | nil => exact ⟨[], rfl⟩
  | cons x xs ih =>
    obtain ⟨⟨y, hy⟩, hxs⟩ := List.forall_mem_cons.mp h
    obtain ⟨ys, hys⟩ := ih hxs
    exact ⟨y :: ys, by rw [List.mapM_cons, hy, hys]; rfl⟩

theorem exists_of_mapM_error {xs : List α} {e : RelayError} (h : xs.mapM read = .error e) :
    ∃ x ∈ xs, read x = .error e := by
  induction xs with
  | nil => cases h
  | cons x xs ih =>
    rw [List.mapM_cons, bind_eq_error_iff] at h
    obtain hx | ⟨y, -, h⟩ := h
    · exact ⟨x, List.mem_cons_self, hx⟩
    · obtain hxs | ⟨tail, -, h⟩ := bind_eq_error_iff.mp h
      · obtain ⟨x', hmem, hx'⟩ := ih hxs
        exact ⟨x', List.mem_cons_of_mem x hmem, hx'⟩
      · cases h

end Lists

/-! ## Bitcoin proofs -/

namespace Bitcoin.MerkleProof

def Wire.lowercase (w : Wire) : Wire := ⟨w.leaf.toLower, w.siblings.map String.toLower, w.sides⟩

variable {p : MerkleProof} {w : Wire}

theorem ofWire_eq_ok_iff :
    ofWire w = .ok p ↔ (∀ text ∈ w.leaf :: w.siblings, Hex.IsHashText text) ∧ p.toWire = w.lowercase := by
  simp only [ofWire, bind_eq_ok_iff, pure_eq_ok_iff, Hash.ofDisplay_eq_ok_iff, mapM_eq_ok_iff Hash.ofDisplay_eq_ok_iff,
    List.forall_mem_cons, toWire, Wire.lowercase, Wire.mk.injEq]
  constructor
  · rintro ⟨leaf, ⟨ht, hl⟩, siblings, ⟨hts, hls⟩, rfl⟩
    exact ⟨⟨ht, hts⟩, hl, hls, rfl⟩
  · rintro ⟨⟨ht, hts⟩, hl, hls, hsides⟩
    exact ⟨p.leaf, ⟨ht, hl⟩, p.siblings, ⟨hts, hls⟩, by rw [← hsides]⟩

theorem toWire_lowercase (p : MerkleProof) :
    (∀ text ∈ p.toWire.leaf :: p.toWire.siblings, Hex.IsHashText text) ∧ p.toWire.lowercase = p.toWire := by
  constructor
  · rw [List.forall_mem_cons]
    exact ⟨p.leaf.reverse.hex_lowercase.1, List.forall_mem_map.mpr fun h _ => h.reverse.hex_lowercase.1⟩
  · rw [toWire, Wire.lowercase, Wire.mk.injEq]
    refine ⟨p.leaf.reverse.hex_lowercase.2, ?_, rfl⟩
    rw [List.map_map]
    exact List.map_congr_left fun h _ => h.reverse.hex_lowercase.2

theorem exists_ofWire (h : ∀ text ∈ w.leaf :: w.siblings, Hex.IsHashText text) : ∃ p, ofWire w = .ok p := by
  obtain ⟨hleaf, hsiblings⟩ := List.forall_mem_cons.mp h
  obtain ⟨leaf, hleaf⟩ := Hash.exists_ofDisplay_iff.mpr hleaf
  obtain ⟨siblings, hsiblings⟩ :=
    exists_mapM_of_forall fun text htext => Hash.exists_ofDisplay_iff.mpr (hsiblings text htext)
  exact ⟨⟨leaf, siblings, w.sides⟩, by rw [ofWire, hleaf, hsiblings]; rfl⟩

/-- **Display texts.** A proof is read back from its texts. Texts are read as a proof exactly if the leaf and all
siblings have 64 digits of either case, and then its texts are the same with lowercase digits. For single hashes,
writing and reading are inverse to each other on lowercase texts. -/
theorem display_texts_read :
    (∀ p : MerkleProof, ofWire p.toWire = .ok p) ∧
    (∀ w : Wire, (∃ p, ofWire w = .ok p) ↔ ∀ text ∈ w.leaf :: w.siblings, Hex.IsHashText text) ∧
    (∀ (w : Wire) (p : MerkleProof), ofWire w = .ok p → p.toWire = w.lowercase) ∧
    (∀ h : Hash, Hash.ofDisplay h.display = .ok h) ∧
    ∀ text : String, Hex.IsHashText text → text.toLower = text →
      ∃ h, Hash.ofDisplay text = .ok h ∧ h.display = text := by
  refine ⟨fun p => ?_, fun w => ⟨?_, exists_ofWire⟩, fun w p h => (ofWire_eq_ok_iff.mp h).2, Hash.ofDisplay_display,
    fun text htext hlower => ?_⟩
  · obtain ⟨htexts, hlower⟩ := p.toWire_lowercase
    exact ofWire_eq_ok_iff.mpr ⟨htexts, hlower.symm⟩
  · rintro ⟨p, h⟩
    exact (ofWire_eq_ok_iff.mp h).1
  · obtain ⟨h, hread⟩ := Hash.exists_ofDisplay_iff.mpr htext
    exact ⟨h, hread, (Hash.ofDisplay_eq_ok_iff.mp hread).2.trans hlower⟩

/-- Texts of a proof of the second of two leaves, the sibling's with digits of either case. -/
def mixedTexts : Wire :=
  ⟨String.ofList (.replicate 64 'f'), [String.ofList (.replicate 32 'b' ++ .replicate 32 'B')], [true]⟩

theorem mixed_texts_read :
    (∀ text ∈ mixedTexts.leaf :: mixedTexts.siblings, Hex.IsHashText text) ∧
      (∃ p, ofWire mixedTexts = .ok p ∧ p.toWire = mixedTexts.lowercase) ∧ mixedTexts.leaf.toLower = mixedTexts.leaf ∧
      ∃ h, Hash.ofDisplay mixedTexts.leaf = .ok h ∧ h.display = mixedTexts.leaf := by
  have htexts : ∀ text ∈ mixedTexts.leaf :: mixedTexts.siblings, Hex.IsHashText text := by
    have hsame {c : Char} (hc : Hex.IsDigit c) (n : Nat) : ∀ d ∈ List.replicate n c, Hex.IsDigit d :=
      fun d hd => List.eq_of_mem_replicate hd ▸ hc
    refine List.forall_mem_cons.mpr ⟨?_, List.forall_mem_singleton.mpr ?_⟩
    · exact Hex.isHashText_ofList rfl (hsame (by decide) 64)
    · exact Hex.isHashText_ofList rfl (List.forall_mem_append.mpr ⟨hsame (by decide) 32, hsame (by decide) 32⟩)
  have hlower : mixedTexts.leaf.toLower = mixedTexts.leaf := Hex.toLower_ofList List.map_replicate
  obtain ⟨-, hread, hwritten, -, hinverse⟩ := display_texts_read
  obtain ⟨p, hp⟩ := (hread mixedTexts).mpr htexts
  exact ⟨htexts, ⟨p, hp, hwritten mixedTexts p hp⟩, hlower, hinverse _ (htexts _ List.mem_cons_self) hlower⟩

end Bitcoin.MerkleProof

/-! ## Consensus-chain proofs -/

namespace Consensus.MerkleProof

variable {p : MerkleProof} {w : Wire} {e : RelayError}

theorem ofWire_eq_ok_iff : ofWire w = .ok p ↔ p.toWire = w := by
  have hread {text : String} {h : Hash} : hashOfText text = .ok h ↔ True ∧ hashText h = id text :=
    hashOfText_eq_ok_iff.trans (and_iff_right trivial).symm
  simp only [ofWire, bind_eq_ok_iff, pure_eq_ok_iff, hashOfText_eq_ok_iff, mapM_eq_ok_iff hread, List.map_id, toWire]
  constructor
  · rintro ⟨leaf, hleaf, aunts, ⟨-, haunts⟩, rfl⟩
    rw [hleaf, haunts]
  · rintro rfl
    exact ⟨p.leafHash, rfl, p.aunts, ⟨fun _ _ => trivial, rfl⟩, rfl⟩

theorem ofWire_error (h : ofWire w = .error e) : ∃ reason, e = .serialization reason := by
  rw [ofWire, bind_eq_error_iff] at h
  obtain hleaf | ⟨leaf, -, h⟩ := h
  · exact hashOfText_error hleaf
  obtain haunts | ⟨aunts, -, h⟩ := bind_eq_error_iff.mp h
  · obtain ⟨text, -, htext⟩ := exists_of_mapM_error haunts
    exact hashOfText_error htext
  · cases h

/-- A text of fewer or more bytes than a hash has is not among those of a proof. -/
theorem length_of_toWire {text : String} {b : Bytes} (htext : text ∈ p.toWire.leafHash :: p.toWire.aunts)
    (hread : Base64.decode? text = some b) : b.length = 32 := by
  have hhash {h : Hash} (heq : text = hashText h) : b.length = 32 := by
    have hb : some b = some h.bytes := hread.symm.trans (Base64.decode?_eq_some_iff.mpr heq.symm)
    rw [Option.some.inj hb, h.length_eq]
  obtain heq | hmem := List.mem_cons.mp htext
  · exact hhash heq
  · obtain ⟨h, -, heq⟩ := List.mem_map.mp hmem
    exact hhash heq.symm

/-- **Base64 texts.** A proof is read back from its texts, and texts that are read as a proof are exactly the texts of
that proof; so no two ways to write it are read. This rests on the same for byte strings. A text of a number of bytes
other than that of a hash is refused as a text, and so is a proof that has one. -/
theorem base64_texts_read :
    (∀ p : MerkleProof, ofWire p.toWire = .ok p) ∧
    (∀ (w : Wire) (p : MerkleProof), ofWire w = .ok p → p.toWire = w) ∧
    (∀ (w w' : Wire) (p : MerkleProof), ofWire w = .ok p → ofWire w' = .ok p → w = w') ∧
    (∀ (text : String) (b : Bytes), Base64.decode? text = some b ↔ Base64.encode b = text) ∧
    (∀ (text : String) (b : Bytes), Base64.decode? text = some b → b.length ≠ 32 →
      hashOfText text = .error (.serialization s!"expected 32 bytes, got {b.length}")) ∧
    ∀ w : Wire, (∃ text ∈ w.leafHash :: w.aunts, ∃ b, Base64.decode? text = some b ∧ b.length ≠ 32) →
      ∃ reason, ofWire w = .error (.serialization reason) := by
  refine ⟨fun p => ofWire_eq_ok_iff.mpr rfl, fun w p => ofWire_eq_ok_iff.mp, fun w w' p h h' => ?_,
    fun text b => Base64.decode?_eq_some_iff, fun text b => hashOfText_misfit, fun w h => ?_⟩
  · exact (ofWire_eq_ok_iff.mp h).symm.trans (ofWire_eq_ok_iff.mp h')
  · obtain ⟨text, htext, b, hread, hlength⟩ := h
    cases hw : ofWire w with
    | ok p =>
      obtain rfl := ofWire_eq_ok_iff.mp hw
      exact absurd (length_of_toWire htext hread) hlength
    | error e =>
      obtain ⟨reason, rfl⟩ := ofWire_error hw
      exact ⟨reason, rfl⟩

def secondOfThree : MerkleProof := ⟨3, 1, .zero, [.replicate 255, .replicate 7]⟩

/-- Its texts with a byte less in that of the last aunt. -/
def shortTexts : Wire :=
  { secondOfThree.toWire with aunts := [hashText (.replicate 255), Base64.encode (.replicate 31 7)] }

/-- It is read back from its texts and from no others; with the byte missing nothing is read. -/
theorem short_texts_refused :
    ofWire secondOfThree.toWire = .ok secondOfThree ∧
      (∀ w, ofWire w = .ok secondOfThree →
        w.aunts.head?.map String.toList = some (.replicate 42 '/' ++ ['8', '='])) ∧
      hashOfText (Base64.encode (.replicate 31 7)) = .error (.serialization "expected 32 bytes, got 31") ∧
      ∃ reason, ofWire shortTexts = .error (.serialization reason) := by
  obtain ⟨hback, hsame, -, hstrict, hmisfit, hrefused⟩ := base64_texts_read
  have hread : Base64.decode? (Base64.encode (.replicate 31 7)) = some (.replicate 31 7) := (hstrict _ _).mpr rfl
  have hlength : (List.replicate 31 (7 : UInt8)).length ≠ 32 := by decide
  refine ⟨hback secondOfThree, fun w hw => ?_, hmisfit _ _ hread hlength,
    hrefused shortTexts ⟨_, by simp [shortTexts], _, hread, hlength⟩⟩
  rw [← hsame w secondOfThree hw, toWire, secondOfThree, List.map_cons, List.head?_cons, Option.map_some, hashText,
    Base64.encode, String.toList_ofList]
  decide +kernel

end Consensus.MerkleProof

end HeaderRelay
