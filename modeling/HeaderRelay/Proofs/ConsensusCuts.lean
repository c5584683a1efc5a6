import HeaderRelay.Proofs.ProofShapes

/-!
# Where trees are cut, on words

The place at which leaves are cut is the only power of two below their number and not below half of it (`isCut_iff`). A
program finds it from the number of bits that a word of 64 bits needs (`wordCut`), with subtractions and a shift that
could fail at the ends of the range; they do not (`wordCut_eq`).

Root, path and climb are then run with every step checked that could fail: the arithmetic, the places in lists, the index
of a path, and that each call has leaves to go on with, and fewer than its caller. So they need no bound on their calls.
They come to the same as the recursions that take no notice of words (`checkedRoot_eq`, `checkedPath_eq`,
`checkedClimb_eq`), hence no step fails. Result: `cuts_well_founded`.
-/
namespace HeaderRelay.Consensus

variable {leaves : List Bytes} {leaf : Hash} {aunts : List Hash} {n a b bits index total : UInt64} {fuel : Nat}

/-! ## The place of the cut -/

/-- So many of `n` leaves stand left of the cut: a power of two, below `n` but not below its half. -/
structure IsCut (n k : Nat) : Prop where
  power : ∃ e, k = twoPow e
  lt : k < n
  le : n ≤ 2 * k

theorem isCut_iff {n k : Nat} (h : 2 ≤ n) : IsCut n k ↔ k = leftCount n := by
  constructor
  · rintro ⟨⟨e, rfl⟩, hlt, hle⟩
    rw [← twoPow_succ] at hle
    have hlog : (n - 1).log2 = e := by
      rw [Nat.log2_eq_iff (by omega)]
      exact ⟨Nat.le_sub_one_of_lt hlt, show _ < twoPow (e + 1) by omega⟩
    rw [leftCount, if_neg (by omega), hlog]
  · rintro rfl
    exact ⟨⟨(n - 1).log2, if_neg (by omega)⟩, leftCount_lt h, le_two_mul_leftCount h⟩

/-! ## Steps that can fail -/

/-- A step that cannot be taken. -/
inductive Misstep
  /-- A word is shifted by all of its bits, or by more. -/
  | shift
  /-- More is taken from a number than it has. -/
  | underflow
  /-- There is no such place in the list. -/
  | range
  /-- The part with which to go on is empty, or no smaller than the whole. -/
  | noProgress
  deriving DecidableEq

abbrev Checked := Except Misstep

def subtract (a b : UInt64) : Checked UInt64 := if b ≤ a then .ok (a - b) else .error .underflow

def shiftLeft (a bits : UInt64) : Checked UInt64 := if bits < 64 then .ok (a <<< bits) else .error .shift

def leadingZeros (n : UInt64) : UInt64 := ⟨n.toBitVec.clz⟩

/-- The place of the cut, from the number of bits that a word needs. -/
def wordCut (n : UInt64) : Checked UInt64 :=
  if n < 1 then .ok 0
  else do
    let length ← subtract 64 (leadingZeros n)
    let bits ← subtract length 1
    let k ← shiftLeft 1 bits
    return if k = n then k >>> 1 else k

theorem exists_subtract (h : b.toNat ≤ a.toNat) : ∃ c, subtract a b = .ok c ∧ c.toNat = a.toNat - b.toNat := by
  have hle : b ≤ a := UInt64.le_iff_toNat_le.mpr h
  exact ⟨a - b, if_pos hle, UInt64.toNat_sub_of_le a b hle⟩

theorem exists_shiftLeft (h : bits.toNat < 64) : ∃ k, shiftLeft 1 bits = .ok k ∧ k.toNat = twoPow bits.toNat := by
  refine ⟨1 <<< bits, if_pos (UInt64.lt_iff_toNat_lt.mpr h), ?_⟩
  have hpow : twoPow bits.toNat < 2 ^ 64 := Nat.pow_lt_pow_right (by decide) h
  rw [UInt64.toNat_shiftLeft, Nat.mod_eq_of_lt h, Nat.shiftLeft_eq, UInt64.toNat_one, Nat.one_mul]
  exact Nat.mod_eq_of_lt hpow

/-- A word that is not zero stands between the powers of two that its leading zeros tell. -/
theorem leadingZeros_spec (h : 1 ≤ n.toNat) :
    (leadingZeros n).toNat < 64 ∧ twoPow (63 - (leadingZeros n).toNat) ≤ n.toNat ∧
      n.toNat < twoPow (64 - (leadingZeros n).toNat) := by
  have hne : n.toBitVec ≠ 0#64 := by
    intro hzero
    have : n.toNat = 0 := congrArg BitVec.toNat hzero
    omega
  exact ⟨BitVec.lt_def.mp (BitVec.clz_lt_iff_ne_zero.mpr hne),
    BitVec.two_pow_sub_clz_le_toNat_of_ne_zero (by decide) hne, BitVec.toNat_lt_two_pow_sub_clz⟩

/-- The cut starts from the power of two at the first bit that is set. -/
theorem exists_wordCut (h : 1 ≤ n.toNat) :
    ∃ k e, wordCut n = .ok (if k = n then k >>> 1 else k) ∧ k.toNat = twoPow e ∧ twoPow e ≤ n.toNat ∧
      n.toNat < twoPow (e + 1) := by
  obtain ⟨hzeros, hlow, hhigh⟩ := leadingZeros_spec h
  obtain ⟨length, hlength, hlengthNat⟩ := exists_subtract (a := 64) (b := leadingZeros n) (Nat.le_of_lt hzeros)
  change length.toNat = 64 - (leadingZeros n).toNat at hlengthNat
  obtain ⟨bits, hbits, hbitsNat⟩ := exists_subtract (a := length) (b := 1) (show 1 ≤ _ by omega)
  change bits.toNat = length.toNat - 1 at hbitsNat
  have hfits : bits.toNat < 64 := by omega
  obtain ⟨k, hk, hkNat⟩ := exists_shiftLeft hfits
  refine ⟨k, bits.toNat, ?_, hkNat, ?_, ?_⟩
  · have hpos : ¬ n < 1 := by
      rw [UInt64.lt_iff_toNat_lt, UInt64.toNat_one]
      omega
    rw [wordCut, if_neg hpos]
    simp only [hlength, hbits, hk, bind, Except.bind, pure, Except.pure]
  · rwa [show bits.toNat = 63 - (leadingZeros n).toNat by omega]
  · rwa [show bits.toNat + 1 = 64 - (leadingZeros n).toNat by omega]

theorem wordCut_eq (h : 2 ≤ n.toNat) : wordCut n = .ok (.ofNat (leftCount n.toNat)) := by
  obtain ⟨k, e, hcut, hk, hlow, hhigh⟩ := exists_wordCut (n := n) (by omega)
  rw [hcut]
  suffices hIsCut : IsCut n.toNat (if k = n then k >>> 1 else k).toNat by
    rw [← (isCut_iff h).mp hIsCut, UInt64.ofNat_toNat]
  by_cases hpower : k = n
  · -- a power of two is cut into halves
    obtain ⟨d, rfl⟩ : ∃ d, e = d + 1 := by
      refine Nat.exists_eq_succ_of_ne_zero fun hzero => ?_
      rw [hzero, show twoPow (0 + 1) = 2 from rfl] at hhigh
      omega
    have hpos := twoPow_pos d
    have hhalf : (k >>> 1).toNat = twoPow d := by
      rw [UInt64.toNat_shiftRight, hk, twoPow_succ]
      show (2 * twoPow d) >>> 1 = _
      rw [Nat.shiftRight_eq_div_pow]
      omega
    rw [twoPow_succ] at hk
    rw [if_pos hpower, ← hpower]
    exact ⟨⟨d, hhalf⟩, by omega, by omega⟩
  · have hne : k.toNat ≠ n.toNat := fun heq => hpower (UInt64.toNat_inj.mp heq)
    rw [twoPow_succ] at hhigh
    rw [if_neg hpower]
    exact ⟨⟨e, hk⟩, by omega, by omega⟩

/-! ## Recursions that can fail -/

/-- A part of a list to go on with: it has leaves, and fewer than the list. -/
abbrev Part (leaves : List Bytes) := { part : List Bytes // 0 < part.length ∧ part.length < leaves.length }

def slice (leaves : List Bytes) (start stop : Nat) : Checked (Part leaves) :=
  if start ≤ stop ∧ stop ≤ leaves.length then
    if h : 0 < (leaves.extract start stop).length ∧ (leaves.extract start stop).length < leaves.length then
      .ok ⟨leaves.extract start stop, h⟩
    else .error .noProgress
  else .error .range

def leafAt (leaves : List Bytes) (place : Nat) : Checked Bytes :=
  match leaves[place]? with
  | some leaf => .ok leaf
  | none => .error .range

/-- The place of the cut with the parts on its left and right. -/
def cutAt (leaves : List Bytes) : Checked (UInt64 × Part leaves × Part leaves) := do
  let k ← wordCut (.ofNat leaves.length)
  let left ← slice leaves 0 k.toNat
  let right ← slice leaves k.toNat leaves.length
  return (k, left, right)

/-- The root over leaves; each part on which it goes on is a `Part`. -/
def checkedRoot (leaves : List Bytes) : Checked Hash :=
  if leaves.length = 0 then return emptyHash
  else if leaves.length = 1 then return leafHash (← leafAt leaves 0)
  else do
    let (_, left, right) ← cutAt leaves
    return innerHash (← checkedRoot left) (← checkedRoot right)
termination_by leaves.length
decreasing_by
  · exact left.2.2
  · exact right.2.2

def checkedPath (leaves : List Bytes) (index : UInt64) : Checked (Hash × List Hash) :=
  if index.toNat < leaves.length then
    if leaves.length = 1 then return (leafHash (← leafAt leaves 0), [])
    else do
      let (k, left, right) ← cutAt leaves
      if index < k then
        let (leaf, aunts) ← checkedPath left index
        return (leaf, aunts ++ [← checkedRoot right])
      else
        let (leaf, aunts) ← checkedPath right (← subtract index k)
        return (leaf, aunts ++ [← checkedRoot left])
  else .error .range
termination_by leaves.length
decreasing_by
  · exact left.2.2
  · exact right.2.2

/-- A number of leaves to go on with. -/
abbrev Fewer (total : UInt64) := { n : UInt64 // 0 < n.toNat ∧ n.toNat < total.toNat }

def fewer (total n : UInt64) : Checked (Fewer total) :=
  if h : 0 < n.toNat ∧ n.toNat < total.toNat then .ok ⟨n, h⟩ else .error .noProgress

/-- The climb along the aunts of a proof, which are given from the leaf up. -/
def checkedClimb (leaf : Hash) (aunts : List Hash) (index total : UInt64) : Checked (Option Hash) :=
  if total.toNat ≤ index.toNat then return none
  else if total.toNat = 1 then return if aunts.isEmpty then some leaf else none
  else
    match aunts.getLast? with
    | none => return none
    | some aunt => do
      let k ← wordCut total
      if index < k then
        let left ← fewer total k
        return (← checkedClimb leaf aunts.dropLast index left).map (innerHash · aunt)
      else
        let right ← fewer total (← subtract total k)
        return (← checkedClimb leaf aunts.dropLast (← subtract index k) right).map (innerHash aunt ·)
termination_by total.toNat
decreasing_by
  · exact left.2.2
  · exact right.2.2

/-! ## No step fails -/

theorem toNat_ofNat_word {m : Nat} (h : m < twoPow 64) : (UInt64.ofNat m).toNat = m := UInt64.toNat_ofNat_of_lt' h

theorem toNat_ofNat_leftCount {m : Nat} (h : 2 ≤ m) (hword : m < twoPow 64) :
    (UInt64.ofNat (leftCount m)).toNat = leftCount m :=
  toNat_ofNat_word (Nat.lt_trans (leftCount_lt h) hword)

def leftPart (h : 2 ≤ leaves.length) : Part leaves :=
  ⟨leaves.take (leftCount leaves.length), by have := cut_lengths h; omega⟩

def rightPart (h : 2 ≤ leaves.length) : Part leaves :=
  ⟨leaves.drop (leftCount leaves.length), by have := cut_lengths h; omega⟩

theorem slice_eq {start stop : Nat} (part : Part leaves) (hplaces : start ≤ stop ∧ stop ≤ leaves.length)
    (hpart : leaves.extract start stop = part.1) : slice leaves start stop = .ok part := by
  obtain ⟨part, hlength⟩ := part
  obtain rfl : leaves.extract start stop = part := hpart
  rw [slice, if_pos hplaces, dif_pos hlength]

theorem cutAt_eq (h : 2 ≤ leaves.length) (hword : leaves.length < twoPow 64) :
    cutAt leaves = .ok (.ofNat (leftCount leaves.length), leftPart h, rightPart h) := by
  have hlt := leftCount_lt h
  have hcut := wordCut_eq (n := .ofNat leaves.length) (by rwa [toNat_ofNat_word hword])
  have hleft : slice leaves 0 (leftCount leaves.length) = .ok (leftPart h) :=
    slice_eq _ ⟨Nat.zero_le _, Nat.le_of_lt hlt⟩ rfl
  have hright : slice leaves (leftCount leaves.length) leaves.length = .ok (rightPart h) :=
    slice_eq _ ⟨Nat.le_of_lt hlt, Nat.le_refl _⟩ (List.take_of_length_le (Nat.le_of_eq List.length_drop))
  rw [toNat_ofNat_word hword] at hcut
  simp only [cutAt, hcut, bind, Except.bind, toNat_ofNat_leftCount h hword, hleft, hright, pure, Except.pure]

theorem checkedRoot_eq (hword : leaves.length < twoPow 64) : checkedRoot leaves = .ok (merkleRoot leaves) := by
  induction leaves using cut_induction with
  | nil =>
    rw [checkedRoot]
    rfl
  | leaf b =>
    rw [checkedRoot]
    rfl
  | cut leaves hmany ihleft ihright =>
    obtain ⟨hcut, hleft, hright⟩ := cut_lengths hmany
    rw [checkedRoot, if_neg (by omega), if_neg (by omega), cutAt_eq hmany hword, merkleRoot_cut hmany]
    simp only [bind, Except.bind, leftPart, rightPart, ihleft (by omega), ihright (by omega), pure, Except.pure]

theorem checkedPath_eq (hword : leaves.length < twoPow 64) (hindex : index.toNat < leaves.length)
    (hfuel : leaves.length ≤ fuel) : checkedPath leaves index = .ok (pathFrom fuel leaves index.toNat) := by
  induction leaves using cut_induction generalizing fuel index with
  | nil => simp at hindex
  | leaf b =>
    obtain ⟨fuel, rfl⟩ := Nat.exists_eq_add_of_le' hfuel
    rw [checkedPath, if_pos hindex]
    rfl
  | cut leaves hmany ihleft ihright =>
    obtain ⟨hcut, hleft, hright⟩ := cut_lengths hmany
    obtain ⟨fuel, rfl⟩ := Nat.exists_eq_add_of_le' (show 1 ≤ fuel by omega)
    have hk := toNat_ofNat_leftCount hmany hword
    rw [checkedPath, if_pos hindex, if_neg (by omega), cutAt_eq hmany hword, pathFrom_cut hmany]
    simp only [bind, Except.bind, UInt64.lt_iff_toNat_lt, hk]
    by_cases hlt : index.toNat < leftCount leaves.length
    · have hpath := ihleft (by omega) (show index.toNat < _ by omega) (show _ ≤ fuel by omega)
      have haunt : checkedRoot (leaves.drop (leftCount leaves.length)) = .ok _ := checkedRoot_eq (by omega)
      simp only [if_pos hlt, leftPart, rightPart, hpath, haunt, pure, Except.pure]
    · obtain ⟨rest, hrest, hrestNat⟩ := exists_subtract (a := index) (b := .ofNat (leftCount leaves.length)) (by omega)
      rw [hk] at hrestNat
      have hpath := ihright (by omega) (show rest.toNat < _ by omega) (show _ ≤ fuel by omega)
      have haunt : checkedRoot (leaves.take (leftCount leaves.length)) = .ok _ := checkedRoot_eq (by omega)
      simp only [if_neg hlt, hrest, leftPart, rightPart, hpath, haunt, hrestNat, pure, Except.pure]

theorem fewer_eq (total n : UInt64) (h : 0 < n.toNat ∧ n.toNat < total.toNat) : fewer total n = .ok ⟨n, h⟩ := dif_pos h

theorem checkedClimb_uncut (h : ¬ (index.toNat < total.toNat ∧ 2 ≤ total.toNat)) :
    checkedClimb leaf aunts index total =
      .ok (if total.toNat = 1 ∧ index.toNat = 0 then if aunts.isEmpty then some leaf else none else none) := by
  rw [checkedClimb]
  by_cases hbeyond : total.toNat ≤ index.toNat
  · rw [if_pos hbeyond, if_neg (show ¬ (total.toNat = 1 ∧ index.toNat = 0) by omega)]
    rfl
  · rw [if_neg hbeyond, if_pos (show total.toNat = 1 by omega),
      if_pos (show total.toNat = 1 ∧ index.toNat = 0 by omega)]
    rfl

theorem checkedClimb_nil (h : index.toNat < total.toNat ∧ 2 ≤ total.toNat) :
    checkedClimb leaf [] index total = .ok none := by
  rw [checkedClimb, if_neg (Nat.not_le.mpr h.1), if_neg (show ¬ total.toNat = 1 by omega)]
  rfl

/-- The last aunt belongs to the cut; below it a climb goes on with the part in which the leaf is. -/
theorem checkedClimb_concat {aunt : Hash} (h : index.toNat < total.toNat ∧ 2 ≤ total.toNat) :
    checkedClimb leaf (aunts ++ [aunt]) index total =
      if index.toNat < leftCount total.toNat then
        (checkedClimb leaf aunts index (.ofNat (leftCount total.toNat))).map (·.map (innerHash · aunt))
      else
        (checkedClimb leaf aunts (.ofNat (index.toNat - leftCount total.toNat))
          (.ofNat (total.toNat - leftCount total.toNat))).map (·.map (innerHash aunt ·)) := by
  have hpos := leftCount_pos h.2
  have hlt := leftCount_lt h.2
  have hk := toNat_ofNat_leftCount h.2 total.toNat_lt
  rw [checkedClimb, if_neg (Nat.not_le.mpr h.1), if_neg (show ¬ total.toNat = 1 by omega), List.getLast?_concat,
    List.dropLast_concat]
  simp only [wordCut_eq h.2, bind, Except.bind, UInt64.lt_iff_toNat_lt, hk]
  by_cases hindex : index.toNat < leftCount total.toNat
  · have hleft := fewer_eq total (.ofNat (leftCount total.toNat)) (by omega)
    simp only [if_pos hindex, hleft]
    rfl
  · obtain ⟨right, hright, hrightNat⟩ := exists_subtract (a := total) (b := .ofNat (leftCount total.toNat)) (by omega)
    obtain ⟨place, hplace, hplaceNat⟩ := exists_subtract (a := index) (b := .ofNat (leftCount total.toNat)) (by omega)
    rw [hk] at hrightNat hplaceNat
    have hfewer := fewer_eq total right (by omega)
    simp only [if_neg hindex, hright, hplace, hfewer, ← hrightNat, ← hplaceNat, UInt64.ofNat_toNat]
    rfl

theorem checkedClimb_eq (leaf : Hash) (aunts : List Hash) (index total : UInt64) :
    checkedClimb leaf aunts.reverse index total = .ok (climb leaf aunts index.toNat total.toNat) := by
  induction aunts generalizing index total with
  | nil =>
    rw [climb]
    by_cases h : index.toNat < total.toNat ∧ 2 ≤ total.toNat
    · rw [List.reverse_nil, checkedClimb_nil h, if_neg (show ¬ (total.toNat = 1 ∧ index.toNat = 0) by omega)]
    · rw [checkedClimb_uncut h]
      rfl
  | cons aunt rest ih =>
    by_cases h : index.toNat < total.toNat ∧ 2 ≤ total.toNat
    · have hright := toNat_ofNat_word (Nat.lt_of_le_of_lt (Nat.sub_le _ (leftCount total.toNat)) total.toNat_lt)
      have hplace := toNat_ofNat_word (Nat.lt_of_le_of_lt (Nat.sub_le _ (leftCount total.toNat)) index.toNat_lt)
      rw [List.reverse_cons, checkedClimb_concat h, ih, ih, toNat_ofNat_leftCount h.2 total.toNat_lt, hright, hplace]
      by_cases hindex : index.toNat < leftCount total.toNat
      · rw [if_pos hindex, climb_left h.2 hindex]
        rfl
      · rw [if_neg hindex, climb_right h.2 h.1 hindex]
        rfl
    · rw [checkedClimb_uncut h, climb, if_neg h]
      simp

/-- **Cuts.** Every word of at least two is cut at the one power of two below it that is not below its half, and both
parts are at least one and less than the word. Root, path and climb cut there, and no step of them fails: on no list
that a word can count, at no index at which a proof is made, any other being refused, and on no proof whose numbers are
words. -/
theorem cuts_well_founded :
    (∀ n : UInt64, 2 ≤ n.toNat → wordCut n = .ok (.ofNat (leftCount n.toNat)) ∧
      (∀ k, IsCut n.toNat k ↔ k = leftCount n.toNat) ∧
      (1 ≤ leftCount n.toNat ∧ leftCount n.toNat ≤ n.toNat - 1) ∧
      (1 ≤ n.toNat - leftCount n.toNat ∧ n.toNat - leftCount n.toNat ≤ n.toNat - 1)) ∧
    (∀ leaves : List Bytes, leaves.length < twoPow 64 → checkedRoot leaves = .ok (merkleRoot leaves)) ∧
    (∀ (leaves : List Bytes) (index : Nat), leaves.length < twoPow 64 →
      (leaves.length ≤ index → prove leaves index = .error (.indexOutOfRange index leaves.length)) ∧
      (index < leaves.length →
        ∃ p, prove leaves index = .ok p ∧ checkedPath leaves (.ofNat index) = .ok (p.leafHash, p.aunts))) ∧
    ∀ p : MerkleProof, p.index < twoPow 64 → p.total < twoPow 64 →
      checkedClimb p.leafHash p.aunts (.ofNat p.index) (.ofNat p.total) =
        .ok (climb p.leafHash p.aunts.reverse p.index p.total) := by
  refine ⟨fun n hn => ?_, fun leaves hword => checkedRoot_eq hword,
    fun leaves index hword => ⟨fun hbeyond => if_neg (Nat.not_lt.mpr hbeyond), fun hindex => ?_⟩,
    fun p hindex htotal => ?_⟩
  · have hpos := leftCount_pos hn
    have hlt := leftCount_lt hn
    exact ⟨wordCut_eq hn, fun k => isCut_iff hn, by omega, by omega⟩
  · have hplace := toNat_ofNat_word (Nat.lt_trans hindex hword)
    have hpath := checkedPath_eq hword (show (UInt64.ofNat index).toNat < _ by omega) (Nat.le_refl leaves.length)
    rw [hplace] at hpath
    exact ⟨_, if_pos hindex, hpath⟩
  · have hclimb := checkedClimb_eq p.leafHash p.aunts.reverse (.ofNat p.index) (.ofNat p.total)
    rwa [List.reverse_reverse, toNat_ofNat_word hindex, toNat_ofNat_word htotal] at hclimb

/-- The largest word, a power of two and the least word that is cut; five leaves with the path to the last of them, and
none beyond; and a proof of the last of as many leaves as a word can count. -/
theorem largest_word_cut :
    2 ≤ UInt64.toNat 18446744073709551615 ∧ wordCut 18446744073709551615 = .ok 9223372036854775808 ∧
      wordCut 9223372036854775808 = .ok 4611686018427387904 ∧ wordCut 2 = .ok 1 ∧
      fiveLeaves.length < twoPow 64 ∧ checkedRoot fiveLeaves = .ok (merkleRoot fiveLeaves) ∧
      4 < fiveLeaves.length ∧ fiveLeaves.length ≤ 5 ∧ prove fiveLeaves 5 = .error (.indexOutOfRange 5 5) ∧
      (∃ p, prove fiveLeaves 4 = .ok p ∧ checkedPath fiveLeaves 4 = .ok (p.leafHash, p.aunts)) ∧
      (MerkleProof.lastOfMost 63).index < twoPow 64 ∧ (MerkleProof.lastOfMost 63).total < twoPow 64 ∧
      checkedClimb emptyHash (List.replicate 63 emptyHash) 18446744073709551614 18446744073709551615 =
        .ok (climb emptyHash (List.replicate 63 emptyHash).reverse (twoPow 64 - 2) (twoPow 64 - 1)) := by
  obtain ⟨hwords, hroot, hpath, hclimb⟩ := cuts_well_founded
  have hfew : fiveLeaves.length < twoPow 64 := by decide
  have hlast : 4 < fiveLeaves.length := by decide
  have hbeyond : fiveLeaves.length ≤ 5 := by decide
  have hindex : (MerkleProof.lastOfMost 63).index < twoPow 64 := by decide
  have htotal : (MerkleProof.lastOfMost 63).total < twoPow 64 := by decide
  refine ⟨by decide, (hwords _ (by decide)).1.trans ?_, (hwords _ (by decide)).1.trans ?_,
    (hwords 2 (by decide)).1.trans ?_, hfew, hroot _ hfew, hlast, hbeyond, (hpath _ 5 hfew).1 hbeyond,
    (hpath _ _ hfew).2 hlast, hindex, htotal, hclimb _ hindex htotal⟩
  · rfl
  · rfl
  · rfl

end HeaderRelay.Consensus
