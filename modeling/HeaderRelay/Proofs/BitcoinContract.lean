import HeaderRelay.Sim.BitcoinClient
import HeaderRelay.Sync.Batch

/-!
# What the Bitcoin light-client contract holds

What the contract is found to hold on a walk back is what it `Has`. Replacing what is above a height keeps
what is held up to it and puts the new hashes above, one per height (`heldAt_replaceAbove`), so that the last
of them is best (`tip_replaceAbove`). Two replacements, the second on top of the first, are one
(`entries_replaceAbove_append`); this is what makes a submission in batches the same as a submission at once.
-/
namespace HeaderRelay.Sim.BitcoinClient

open HeaderRelay.Bitcoin (Header)

variable {c c' : BitcoinClient} {t height : Nat} {hs : List Header}

/-! ## Entries -/

@[simp] theorem above_nil (t : Nat) : above t [] = [] := rfl

theorem above_cons (t : Nat) (x : Header) (hs : List Header) :
    above t (x :: hs) = above (t + 1) hs ++ [(t + 1, x.hash)] := by
  simp [above, List.range'_succ]

theorem above_append (t : Nat) (xs ys : List Header) :
    above t (xs ++ ys) = above (t + xs.length) ys ++ above t xs := by
  induction xs generalizing t with
  | nil => simp
  | cons x xs ih =>
    rw [List.cons_append, above_cons, ih, above_cons, List.append_assoc]
    simp only [List.length_cons]
    congr 2
    omega

theorem le_of_mem_above {e : Nat × Hash} (h : e ∈ above t hs) : e.1 ≤ t + hs.length := by
  have hz : (e.1, e.2) ∈ (List.range' (t + 1) hs.length).zip (hs.map (·.hash)) := List.mem_reverse.mp h
  have := List.mem_range'_1.mp (List.of_mem_zip hz).1
  omega

theorem head?_above {x : Header} (h : hs.getLast? = some x) :
    (above t hs).head? = some (t + hs.length, x.hash) := by
  obtain ⟨ys, rfl⟩ := List.getLast?_eq_some_iff.mp h
  rw [above_append, above_cons]
  simp [Nat.add_assoc]

theorem lookup_above (t height : Nat) (hs : List Header) :
    (above t hs).lookup height =
      if height ≤ t then none else hs[height - (t + 1)]?.map (·.hash) := by
  induction hs generalizing t with
  | nil => simp
  | cons x hs ih =>
    rw [above_cons, List.lookup_append, ih]
    rcases Nat.lt_trichotomy height (t + 1) with h | rfl | h
    · simp [show height ≤ t + 1 by omega, show height ≤ t by omega, List.lookup_cons,
        show (height == t + 1) = false by simp; omega]
    · simp
    · obtain ⟨i, rfl⟩ : ∃ i, height = t + 2 + i := ⟨height - (t + 2), by omega⟩
      simp [List.lookup_cons, show ¬ t + 2 + i ≤ t + 1 by omega, show ¬ t + 2 + i ≤ t by omega,
        show t + 2 + i - (t + 1) = i + 1 by omega, show t + 2 + i - (t + 1 + 1) = i by omega,
        show (t + 2 + i == t + 1) = false by simp; omega]

theorem lookup_filter_le (t height : Nat) (es : List (Nat × Hash)) :
    (es.filter fun e => e.1 ≤ t).lookup height = if height ≤ t then es.lookup height else none := by
  induction es with
  | nil => simp
  | cons e es ih =>
    obtain ⟨h, x⟩ := e
    by_cases heq : height = h
    · subst heq
      by_cases hle : height ≤ t <;> simp [hle, ih]
    · have hne : (height == h) = false := by simpa using heq
      by_cases hle : h ≤ t <;> simp [hle, List.lookup_cons, ih, hne]

theorem tip_congr (h : c'.entries = c.entries) : c'.tip = c.tip := by rw [tip, tip, h]

theorem heldAt_congr (h : c'.entries = c.entries) (height : Nat) : c'.heldAt height = c.heldAt height := by
  rw [heldAt, heldAt, h]

/-- The hash is the contract's best, or held at a height up to that of the best. -/
def Has (c : BitcoinClient) (height : Nat) (hash : Hash) : Prop :=
  hash = c.tip.2 ∨ (height ≤ c.tip.1 ∧ c.heldAt height = some hash)

theorem has_congr (h : c'.entries = c.entries) (height : Nat) (hash : Hash) :
    c'.Has height hash ↔ c.Has height hash := by
  rw [Has, Has, tip_congr h, heldAt_congr h]

/-- The contract has none of the headers, the first of which is above `t`. -/
def Lacks (c : BitcoinClient) : (t : Nat) → List Header → Prop
  | _, [] => True
  | t, h :: rest => ¬ c.Has (t + 1) h.hash ∧ c.Lacks (t + 1) rest

theorem lacks_append {xs ys : List Header} :
    c.Lacks t (xs ++ ys) ↔ c.Lacks t xs ∧ c.Lacks (t + xs.length) ys := by
  induction xs generalizing t with
  | nil => simp [Lacks]
  | cons x xs ih =>
    simp only [List.cons_append, Lacks, ih, List.length_cons, and_assoc]
    rw [show t + 1 + xs.length = t + (xs.length + 1) by omega]

theorem lacks_congr (h : c'.entries = c.entries) : c'.Lacks t hs ↔ c.Lacks t hs := by
  induction hs generalizing t with
  | nil => rfl
  | cons x hs ih => rw [Lacks, Lacks, has_congr h, ih]

/-- Above its best height, the contract has nothing but its best header. -/
theorem lacks_of_above (ht : c.tip.1 ≤ t) (hne : ∀ h ∈ hs, h.hash ≠ c.tip.2) : c.Lacks t hs := by
  induction hs generalizing t with
  | nil => trivial
  | cons x hs ih =>
    refine ⟨?_, ih (by omega) fun h hh => hne h (List.mem_cons_of_mem x hh)⟩
    intro hhas
    rcases hhas with h | ⟨hle, -⟩
    · exact hne x List.mem_cons_self h
    · omega

/-! ## Replacement -/

theorem heldAt_replaceAbove (c : BitcoinClient) (t height : Nat) (hs : List Header) :
    (c.replaceAbove t hs).heldAt height =
      if height ≤ t then c.heldAt height else hs[height - (t + 1)]?.map (·.hash) := by
  simp only [heldAt, replaceAbove, List.lookup_append, lookup_above, lookup_filter_le]
  split
  · rfl
  · simp

theorem tip_replaceAbove {x : Header} (h : hs.getLast? = some x) :
    (c.replaceAbove t hs).tip = (t + hs.length, x.hash) := by
  simp [tip, replaceAbove, List.head?_append, head?_above h]

theorem entries_replaceAbove_append (c : BitcoinClient) (t : Nat) (xs ys : List Header)
    (h : c'.entries = (c.replaceAbove t xs).entries) :
    (c'.replaceAbove (t + xs.length) ys).entries = (c.replaceAbove t (xs ++ ys)).entries := by
  have habove : (above t xs).filter (fun e => e.1 ≤ t + xs.length) = above t xs := by
    rw [List.filter_eq_self]
    exact fun e he => decide_eq_true (le_of_mem_above he)
  have hbelow : (c.entries.filter fun e => e.1 ≤ t).filter (fun e => e.1 ≤ t + xs.length) =
      c.entries.filter fun e => e.1 ≤ t := by
    rw [List.filter_filter]
    refine List.filter_congr fun e _ => ?_
    by_cases he : e.1 ≤ t
    · simp [he]
      omega
    · simp [he]
  simp only [replaceAbove] at h ⊢
  rw [h, List.filter_append, habove, hbelow, above_append, List.append_assoc]

/-! ## Submissions -/

theorem links_append {p : Option Hash} {x : Header} {xs ys : List Header} (hx : xs.getLast? = some x) :
    links p (xs ++ ys) = (links p xs && links (some x.hash) ys) := by
  induction xs generalizing p with
  | nil => cases hx
  | cons a xs ih =>
    cases xs with
    | nil =>
      cases hx
      simp [links]
    | cons b xs =>
      rw [List.getLast?_cons_cons] at hx
      simp only [List.cons_append, links, Bool.and_assoc] at ih ⊢
      rw [ih hx]

/-- `c.Took t hs c'`: `c'` holds what `c` is to hold when it has taken `hs` above `t`. -/
structure Took (c : BitcoinClient) (t : Nat) (hs : List Header) (c' : BitcoinClient) : Prop where
  links : links (c.heldAt t) hs = true
  entries : c'.entries = (c.replaceAbove t hs).entries

theorem Took.parent {h : Header} (ht : c.Took t (h :: hs) c') : c.heldAt t = some h.prevHash := by
  have hl := ht.links
  simp only [BitcoinClient.links, Bool.and_eq_true, beq_iff_eq] at hl
  exact hl.1

theorem Took.heldAt (ht : c.Took t hs c') (height : Nat) :
    c'.heldAt height = if height ≤ t then c.heldAt height else hs[height - (t + 1)]?.map (·.hash) := by
  rw [← heldAt_replaceAbove, BitcoinClient.heldAt, ht.entries]
  rfl

theorem Took.tip {x : Header} (ht : c.Took t hs c') (hx : hs.getLast? = some x) :
    c'.tip = (t + hs.length, x.hash) := by
  rw [← tip_replaceAbove hx, BitcoinClient.tip, ht.entries]
  rfl

theorem Took.links_append {c₁ : BitcoinClient} {xs ys : List Header} (hxs : xs ≠ []) (h : c.Took t xs c₁) :
    BitcoinClient.links (c.heldAt t) (xs ++ ys) = BitcoinClient.links (c₁.heldAt (t + xs.length)) ys := by
  have hx := List.getLast?_eq_some_getLast hxs
  have hheld : c₁.heldAt (t + xs.length) = some (xs.getLast hxs).hash := by
    have hpos := List.length_pos_iff.mpr hxs
    rw [h.heldAt, if_neg (by omega), show t + xs.length - (t + 1) = xs.length - 1 by omega,
      ← List.getLast?_eq_getElem?, hx]
    rfl
  rw [BitcoinClient.links_append hx, h.links, hheld, Bool.true_and]

/-- **Batches.** Headers taken on top of headers taken are taken as if at once. -/
theorem Took.append {c₁ c₂ : BitcoinClient} {xs ys : List Header} (hxs : xs ≠ []) (h₁ : c.Took t xs c₁)
    (h₂ : c₁.Took (t + xs.length) ys c₂) : c.Took t (xs ++ ys) c₂ := by
  refine ⟨?_, h₂.entries.trans (entries_replaceAbove_append c t xs ys h₁.entries)⟩
  rw [h₁.links_append hxs, h₂.links]

theorem Took.congr {c₀ c₁ : BitcoinClient} (h₀ : c₀.entries = c.entries) (h₁ : c₁.entries = c'.entries)
    (ht : c.Took t hs c') : c₀.Took t hs c₁ := by
  refine ⟨?_, ?_⟩
  · rw [heldAt_congr h₀]
    exact ht.links
  · rw [h₁, ht.entries, replaceAbove, replaceAbove, h₀]

theorem took_of_submit {gas : Option Nat} {r : Channel.Response}
    (h : c.submit t hs gas = (.ok r, c')) : c.Took t hs c' := by
  simp only [submit] at h
  split at h
  · cases h
  split at h
  · rename_i hl
    cases h
    exact ⟨hl, rfl⟩
  · cases h

theorem entries_of_submit {gas : Option Nat} {x : RelayError}
    (h : c.submit t hs gas = (.error x, c')) : c'.entries = c.entries := by
  simp only [submit] at h
  split at h
  · cases h
    rfl
  split at h
  · cases h
  · cases h
    rfl

theorem refused_of_submit {gas : Option Nat} {r : Relayed Channel.Response}
    (h : c.submit t hs gas = (r, c')) : c'.refused = c.refused := by
  simp only [submit] at h
  split at h
  · cases h
    rfl
  split at h <;> cases h <;> rfl

/-- A contract that is set to refuse nothing refuses only headers that do not link. -/
theorem links_of_refused {gas : Option Nat} {x : RelayError} (hc : c.refused = none)
    (h : c.submit t hs gas = (.error x, c')) : BitcoinClient.links (c.heldAt t) hs = false := by
  simp only [submit, hc] at h
  split at h
  · rename_i hnone
    cases hnone
  split at h
  · cases h
  · rename_i hlinks
    exact eq_false_of_ne_true hlinks

end HeaderRelay.Sim.BitcoinClient
