import HeaderRelay.Proofs.Selection
import Mathlib.Data.List.Chain
import Mathlib.Logic.ExistsUnique

/-!
# The selection is the one that the rule allows

The rule speaks of some headers of a list: each of them is due after the one of them before it, and no other header
is due after the latest of them before it. Which headers of the list are meant is a matter of places, not of
headers, since a list may repeat one, so a selection is a list of headers with a mark on each (`chosen`).
`dueHeaders_unique` says that exactly one selection of a list meets the rule and that its headers are those of
`dueHeaders`; with it are the two facts that the engines rely on, that a list may be cut anywhere and that no gap
is too large.
-/
namespace HeaderRelay.Sync

open Consensus (Header)

variable {m : Nat} {headers : List Header} {marked : List (Header × Bool)} {last h : Header} {taken : Bool}

def chosen (marked : List (Header × Bool)) : List Header := (marked.filter (·.2)).map (·.1)

/-- Each header is marked exactly if it is due after the latest marked one before it, which is `last` where there
is none. -/
def MeetsRule (m : Nat) (last : Header) (marked : List (Header × Bool)) : Prop :=
  ∀ before h taken after, marked = before ++ (h, taken) :: after →
    (taken = true ↔ isDue h ((chosen before).getLast?.getD last) m = true)

def mark (m : Nat) : (headers : List Header) → (last : Header) → List (Header × Bool)
  | [], _ => []
  | h :: rest, last => (h, isDue h last m) :: mark m rest (if isDue h last m then h else last)

theorem chosen_mark (headers : List Header) (last : Header) :
    chosen (mark m headers last) = dueHeaders m headers last := by
  induction headers generalizing last with
  | nil => rfl
  | cons h rest ih =>
    cases hdue : isDue h last m with
    | true => simpa [mark, chosen, dueHeaders, hdue] using ih h
    | false => simpa [mark, chosen, dueHeaders, hdue] using ih last

theorem latest_cons :
    (chosen ((h, taken) :: marked)).getLast?.getD last =
      (chosen marked).getLast?.getD (if taken then h else last) := by
  cases taken with
  | true => exact congrArg (Option.getD · last) List.getLast?_cons
  | false => rfl

theorem meetsRule_cons :
    MeetsRule m last ((h, taken) :: marked) ↔
      taken = isDue h last m ∧ MeetsRule m (if taken then h else last) marked := by
  constructor
  · intro hrule
    refine ⟨Bool.eq_iff_iff.mpr (hrule [] h taken marked rfl), fun before h' taken' after heq => ?_⟩
    rw [← latest_cons]
    exact hrule ((h, taken) :: before) h' taken' after (congrArg _ heq)
  · rintro ⟨htaken, hrest⟩ before h' taken' after heq
    cases before with
    | nil =>
      obtain ⟨hhead, -⟩ := List.cons.inj heq
      cases hhead
      exact Bool.eq_iff_iff.mp htaken
    | cons first before =>
      obtain ⟨rfl, hmarked⟩ := List.cons.inj heq
      rw [latest_cons]
      exact hrest before h' taken' after hmarked

/-- The marks of the selection are the only ones that meet the rule. -/
theorem meetsRule_iff :
    marked.map Prod.fst = headers ∧ MeetsRule m last marked ↔ marked = mark m headers last := by
  induction headers generalizing marked last with
  | nil =>
    constructor
    · exact fun h => List.map_eq_nil_iff.mp h.1
    · rintro rfl
      exact ⟨rfl, fun before h taken after heq => by simp [mark] at heq⟩
  | cons h rest ih =>
    cases marked with
    | nil => simp [mark]
    | cons first marked =>
      obtain ⟨h', taken⟩ := first
      rw [meetsRule_cons, mark, List.map_cons, List.cons_eq_cons, List.cons_eq_cons, Prod.mk.injEq]
      constructor
      · rintro ⟨⟨rfl, hfst⟩, rfl, hrest⟩
        exact ⟨⟨rfl, rfl⟩, ih.mp ⟨hfst, hrest⟩⟩
      · rintro ⟨⟨rfl, rfl⟩, hmarked⟩
        obtain ⟨hfst, hrest⟩ := ih.mpr hmarked
        exact ⟨⟨rfl, hfst⟩, rfl, hrest⟩

/-! ## Runs of due headers -/

/-- `b` lies above `a` and has to be submitted after it. -/
def DueAfter (m : Nat) (a b : Header) : Prop := a.height < b.height ∧ isDue b a m = true

theorem rising_of_isChain (h : headers.IsChain (DueAfter m)) : headers.Pairwise fun a b => a.height < b.height :=
  List.pairwise_map.mp ((List.isChain_map Header.height).mpr (h.imp fun _ _ hab => hab.1)).pairwise

theorem isChain_dueHeaders (h : (last :: headers).Pairwise fun a b => a.height < b.height) :
    (last :: dueHeaders m headers last).IsChain (DueAfter m) := by
  induction headers generalizing last with
  | nil => exact .singleton last
  | cons x rest ih =>
    obtain ⟨hlast, hrest⟩ := List.pairwise_cons.mp h
    rw [dueHeaders]
    split
    · rename_i hdue
      exact (ih hrest).cons_cons ⟨hlast x List.mem_cons_self, hdue⟩
    · exact ih (List.pairwise_cons.mpr ⟨fun y hy => hlast y (List.mem_cons_of_mem x hy),
        (List.pairwise_cons.mp hrest).2⟩)

/-! ## Gaps -/

/-- From a list with a header for each height from `start` on, where `start` is not too high to be due, the selected
ones rise by no more than the largest gap, and the list ends before another one would be due. -/
theorem dueHeaders_gaps (hm : 1 ≤ m) {start : Nat} (hlast : last.height < start) (hstart : start ≤ last.height + m)
    (hheights : headers.map (·.height) = List.range' start headers.length) :
    (last :: dueHeaders m headers last).IsChain
        (fun a b => a.height < b.height ∧ b.height ≤ a.height + m) ∧
      start + headers.length ≤ ((dueHeaders m headers last).getLast?.getD last).height + m := by
  induction headers generalizing last start with
  | nil => exact ⟨.singleton last, hstart⟩
  | cons h rest ih =>
    rw [List.map_cons, List.length_cons, List.range'_succ] at hheights
    obtain ⟨hheight, hrest⟩ := List.cons.inj hheights
    have hlength : start + (h :: rest).length = start + 1 + rest.length := by
      rw [List.length_cons]
      omega
    rw [hlength, dueHeaders]
    split
    · have hnext : start + 1 ≤ h.height + m := hheight ▸ Nat.add_le_add_left hm _
      obtain ⟨hchain, htop⟩ := @ih h (start + 1) (by omega) hnext hrest
      rw [List.getLast?_cons, Option.getD_some]
      exact ⟨hchain.cons_cons ⟨by omega, by omega⟩, htop⟩
    · rename_i hdue
      have hgap := height_lt_of_not_isDue hdue (by omega)
      exact @ih last (start + 1) (by omega) (by omega) hrest

/-- **The inclusion rule.** Exactly one selection of a list meets the rule, and its headers are the selected ones. A
list may be cut anywhere, the second part being judged against the last header selected from the first. If the list
has a header for each height from the one above `last` on, the selected heights rise by at most the largest gap,
from that of `last` on, and the list ends less than that above the last of them. -/
theorem dueHeaders_unique (m : Nat) (headers : List Header) (last : Header) :
    (∃! marked : List (Header × Bool), marked.map Prod.fst = headers ∧ MeetsRule m last marked) ∧
      (∀ marked : List (Header × Bool), marked.map Prod.fst = headers → MeetsRule m last marked →
        chosen marked = dueHeaders m headers last) ∧
      (∀ xs ys : List Header, headers = xs ++ ys →
        dueHeaders m headers last =
          dueHeaders m xs last ++ dueHeaders m ys ((dueHeaders m xs last).getLast?.getD last)) ∧
      (1 ≤ m → headers.map (·.height) = List.range' (last.height + 1) headers.length →
        (last :: dueHeaders m headers last).IsChain
            (fun a b => a.height < b.height ∧ b.height ≤ a.height + m) ∧
          ∀ top ∈ headers.getLast?,
            top.height < ((dueHeaders m headers last).getLast?.getD last).height + m) := by
  refine ⟨⟨mark m headers last, meetsRule_iff.mpr rfl, fun marked h => meetsRule_iff.mp h⟩, ?_, ?_, ?_⟩
  · intro marked hfst hrule
    rw [meetsRule_iff.mp ⟨hfst, hrule⟩, chosen_mark]
  · rintro xs ys rfl
    exact dueHeaders_append m xs ys last
  · intro hm hheights
    obtain ⟨hchain, hend⟩ := dueHeaders_gaps hm (Nat.lt_succ_self _) (Nat.add_le_add_left hm _) hheights
    refine ⟨hchain, fun top htop => ?_⟩
    have hmem : top.height ∈ headers.map (·.height) := List.mem_map_of_mem (List.mem_of_getLast? htop)
    rw [hheights] at hmem
    have := List.mem_range'_1.mp hmem
    omega

/-- Of the heights from 5 on, with a largest gap of 2 above height 4, one in two is selected. -/
theorem dueHeaders_unique_from_four :
    let header (h : Nat) : Header := { (default : Header) with height := h }
    let run := [5, 6, 7].map header
    1 ≤ 2 ∧ run.map (·.height) = List.range' ((header 4).height + 1) run.length ∧
      dueHeaders 2 run (header 4) = [header 6] ∧
      (header 4 :: dueHeaders 2 run (header 4)).IsChain
        (fun a b => a.height < b.height ∧ b.height ≤ a.height + 2) ∧
      ∀ top ∈ run.getLast?, top.height < ((dueHeaders 2 run (header 4)).getLast?.getD (header 4)).height + 2 := by
  intro header run
  obtain ⟨-, -, -, hgaps⟩ := dueHeaders_unique 2 run (header 4)
  exact ⟨by decide, rfl, by decide, hgaps (by decide) rfl⟩

end HeaderRelay.Sync
