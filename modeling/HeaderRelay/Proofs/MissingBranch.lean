import HeaderRelay.Proofs.BitcoinWalk
import HeaderRelay.Proofs.RetryScripts

/-!
# The missing branch

A `Landscape` is a node and a contract that do not change: the node's best header with its height, what it answers for
each hash, the contract's best header with its height, and what the contract answers at each height, which need not
fit the rest. Its `ancestor n` is `n` steps back from the node's best, and the two sides `Meet` there if that is the
contract's best, or what the contract holds at its height.

A `Search` asks such peers, who answer in time and keep the calls that they are asked. What a cycle comes to against
them does not depend on when it is run (`Search.Finds`). The walk goes down from the best header one step at a time,
keeping what it has seen so far (`Came`), and each of its exits is an end of the search (`Ending`), unless the node puts
it off: it may ask for pauses for ever.

Result: `missing_branch_found`. The gap is the branch from the first place where the two sides meet, if the walk may
go so far; there is none if they meet at the best header itself; and otherwise the search fails.
-/
namespace HeaderRelay

open Peer (Call)
open HeaderRelay.Bitcoin (Header)

variable {σ τ α β : Type}

namespace Sync.Bitcoin

/-! ## Landscapes -/

/-- A node and a contract that do not change: a question has the same answer every time. -/
structure Landscape where
  best : Hash
  height : Nat
  header : Hash → Relayed Header
  contractBest : Hash
  contractHeight : Nat
  heldAt : Nat → Option Hash
  /-- How long an answer takes. -/
  takes : Call → Nat
  /-- The node answers a hash by the header of that hash. -/
  honest : ∀ {hash h}, header hash = .ok h → h.hash = hash

namespace Landscape

variable (p : Landscape)

def answer : (c : Call) → Relayed c.Answer
  | .bitcoinNode .bestBlockHash => .ok p.best
  | .bitcoinNode (.header hash) => p.header hash
  | .bitcoinNode (.headerHeight hash) => if hash = p.best then .ok p.height else .error (.headerNotFound hash.hex)
  | .bitcoinClient .bestHeaderHash => .ok p.contractBest
  | .bitcoinClient .bestHeight => .ok p.contractHeight
  | .bitcoinClient (.headerHashAt height) => .ok (p.heldAt height)
  | _ => .error (.inconsistent "")

/-- The peers, who keep the calls that they are asked, oldest first. -/
def handler : Peer.Handler (List Call) := fun c => do
  Timed.sleep (p.takes c)
  Timed.onPeers fun asked => (p.answer c, asked ++ [c])

/-- The hash of the header so many steps back from the best, if the headers before it are known. -/
def ancestor : Nat → Option Hash
  | 0 => some p.best
  | n + 1 => (ancestor n).bind fun hash => (p.header hash).toOption.map Header.prevHash

/-- The contract holds the hash, as its best or at the height. -/
def Holds (height : Nat) (hash : Hash) : Prop :=
  hash = p.contractBest ∨ height ≤ p.contractHeight ∧ p.heldAt height = some hash

instance (height : Nat) (hash : Hash) : Decidable (p.Holds height hash) := inferInstanceAs (Decidable (_ ∨ _))

/-- So many steps back from its best header the node is at a header that the contract holds. -/
def Meets (n : Nat) : Prop := n ≤ p.height ∧ ∃ hash ∈ p.ancestor n, p.Holds (p.height - n) hash

instance (n : Nat) : Decidable (p.Meets n) := inferInstanceAs (Decidable (_ ∧ _))

/-- The headers before the `n`-th ancestor, oldest first. -/
structure Branch (n : Nat) (headers : List Header) : Prop where
  hashes : headers.map (fun h => some h.hash) = ((List.range n).map p.ancestor).reverse
  known : ∀ h ∈ headers, p.header h.hash = .ok h

def Patient : Prop := ∀ hash seconds, p.header hash ≠ .error (.rateLimited seconds)

variable {p} {n : Nat} {hash : Hash} {h : Header} {headers : List Header}

theorem ancestor_succ (hn : p.ancestor n = some hash) (hh : p.header hash = .ok h) :
    p.ancestor (n + 1) = some h.prevHash := by
  simp [ancestor, hn, hh, Except.toOption]

theorem ancestor_eq_none {x : RelayError} (hn : p.ancestor n = some hash) (hh : p.header hash = .error x) (m : Nat) :
    p.ancestor (n + 1 + m) = none := by
  induction m with
  | zero => simp [ancestor, hn, hh, Except.toOption]
  | succ m ih => simp [ancestor, ih]

theorem Meets.holds (hm : p.Meets n) (hn : p.ancestor n = some hash) : p.Holds (p.height - n) hash := by
  obtain ⟨-, hash', hn', hholds⟩ := hm
  rw [hn] at hn'
  cases hn'
  exact hholds

theorem Branch.nil (p : Landscape) : p.Branch 0 [] := ⟨rfl, by simp⟩

theorem Branch.cons (hb : p.Branch n headers) (hn : p.ancestor n = some hash) (hh : p.header hash = .ok h) :
    p.Branch (n + 1) (h :: headers) := by
  have hhash := p.honest hh
  refine ⟨?_, ?_⟩
  · simp [List.range_succ, hb.hashes, hn, hhash]
  · simpa [hhash, hh] using hb.known

theorem Branch.length (hb : p.Branch n headers) : headers.length = n := by
  simpa using congrArg List.length hb.hashes

theorem Branch.ancestor_of_getElem? (hb : p.Branch n headers) {i : Nat} (hi : headers[i]? = some h) :
    i < n ∧ p.ancestor (n - 1 - i) = some h.hash := by
  have hlt : i < n := by
    rw [← hb.length]
    exact (List.getElem?_eq_some_iff.mp hi).1
  have hhash := congrArg (·[i]?) hb.hashes
  simp [hi, hlt] at hhash
  exact ⟨hlt, hhash.symm⟩

end Landscape

/-! ## The gap -/

/-- The gap is the branch of the `n` headers that lead to the best one: the contract holds none of them at its height,
and the oldest follows a header that the contract holds. -/
structure MissingBranch (p : Landscape) (n : Nat) (g : Gap) : Prop where
  tipHeight : g.tipHeight = p.height - n
  branch : p.Branch n g.headers
  lacked : ∀ i h, g.headers[i]? = some h → g.tipHeight + 1 + i ≤ p.contractHeight →
    p.heldAt (g.tipHeight + 1 + i) ≠ some h.hash
  linked : ∀ h, g.headers.head? = some h → p.Holds g.tipHeight h.prevHash

theorem MissingBranch.of_meets {p : Landscape} {n : Nat} {headers : List Header} (hb : p.Branch n headers)
    (hmeets : p.Meets n) (hfirst : ∀ i < n, ¬ p.Meets i) : MissingBranch p n ⟨p.height - n, headers⟩ := by
  refine ⟨rfl, hb, fun i h hi hheight hheld => ?_, fun h hhead => ?_⟩
  · obtain ⟨hlt, hancestor⟩ := hb.ancestor_of_getElem? hi
    have hle := hmeets.1
    refine hfirst (n - 1 - i) (by omega) ⟨by omega, h.hash, hancestor, .inr ?_⟩
    dsimp only at hheight hheld
    rw [show p.height - (n - 1 - i) = p.height - n + 1 + i by omega]
    exact ⟨hheight, hheld⟩
  · -- the oldest header is the last before the place where the two sides meet
    rw [List.head?_eq_getElem?] at hhead
    obtain ⟨hlt, hancestor⟩ := hb.ancestor_of_getElem? hhead
    have hparent := Landscape.ancestor_succ hancestor (hb.known h (List.mem_of_getElem? hhead))
    rw [show n - 1 - 0 + 1 = n by omega] at hparent
    exact hmeets.holds hparent

def headerReads (asked : List Call) : Nat :=
  asked.countP fun
    | .bitcoinNode (.header _) => true
    | _ => false

@[simp] theorem headerReads_append (asked asked' : List Call) :
    headerReads (asked ++ asked') = headerReads asked + headerReads asked' := List.countP_append

/-- The two sides do not meet as far as a search of at most `max` steps may go. -/
def Landscape.Apart (p : Landscape) (max : Nat) : Prop := ∀ n ≤ min max p.height, ¬ p.Meets n

/-- How a search of at most `max` steps ends, and how many headers it asks for. -/
inductive Ending (p : Landscape) (max : Nat) : Relayed (Option Gap) → (reads : Nat) → Prop where
  | held : p.Meets 0 → Ending p max (.ok none) 0
  | branch {n : Nat} {g : Gap} : 0 < n → n ≤ max → p.Meets n → (∀ i < n, ¬ p.Meets i) → MissingBranch p n g →
    Ending p max (.ok (some g)) n
  | failed {x : RelayError} {reads : Nat} : p.Apart max →
    (max ≤ p.height → (p.ancestor max).isSome → x = .forkUnresolved max max ∧ reads = max) →
    Ending p max (.error x) reads

/-! ## Searching -/

/-- A search against such peers, who answer before the deadline. All attempts of a read are followed. -/
structure Search extends Landscape where
  followed : Nat
  policy : Policy
  attempts : max 1 policy.maxAttempts ≤ followed
  inTime : ∀ c, takes c ≤ policy.timeout

namespace Search

/-- Whenever it is run, the cycle comes to an outcome, and asks for so many headers on the way. -/
def Finds (q : Search) (x : Cycle σ α) (r : Relayed α) (reads : Nat) : Prop :=
  ∀ s w, ∃ w', (x.start s).run q.followed q.policy q.handler none w = (.done (r, s), w') ∧
    headerReads w'.peers = headerReads w.peers + reads

variable {q : Search} {m n : Nat}

theorem finds_pure (a : α) : q.Finds (pure a : Cycle σ α) (.ok a) 0 := fun _ w => ⟨w, rfl, rfl⟩

theorem finds_throw (x : RelayError) : q.Finds (throw x : Cycle σ α) (.error x) 0 := fun _ w => ⟨w, rfl, rfl⟩

theorem finds_log (ev : Log.Event) (a : α) : q.Finds (Cycle.log ev >>= fun _ => pure a : Cycle σ α) (.ok a) 0 :=
  fun _ w => ⟨{ w with log := ev :: w.log }, rfl, rfl⟩

theorem Finds.bind {x : Cycle σ β} {f : β → Cycle σ α} {b : β} {r : Relayed α} (hx : q.Finds x (.ok b) m)
    (hf : q.Finds (f b) r n) : q.Finds (x >>= f) r (m + n) := by
  intro s w
  obtain ⟨w₁, hrun, hreads⟩ := hx s w
  obtain ⟨w', hrun', hreads'⟩ := hf s w₁
  refine ⟨w', (Program.run_andThen_of_done _ hrun).trans hrun', ?_⟩
  rw [hreads', hreads, Nat.add_assoc]

theorem Finds.bind_error {x : Cycle σ β} {y : RelayError} (f : β → Cycle σ α) (hx : q.Finds x (.error y) n) :
    q.Finds (x >>= f) (.error y) n := by
  intro s w
  obtain ⟨w₁, hrun, hreads⟩ := hx s w
  exact ⟨w₁, Program.run_andThen_of_done _ hrun, hreads⟩

theorem finds_ite {c : Prop} [Decidable c] {x y : Cycle σ α} {r : Relayed α} (hx : c → q.Finds x r n)
    (hy : ¬ c → q.Finds y r n) : q.Finds (if c then x else y) r n := by
  split
  · exact hx ‹c›
  · exact hy ‹¬ c›

theorem within_handler (q : Search) (c : Call) (w : World (List Call)) :
    ∃ w', Timed.within q.policy.timeout (q.handler c) none w = (.done (q.answer c), w') ∧
      headerReads w'.peers = headerReads w.peers + headerReads [c] := by
  have hle : w.now + sleepTime (q.takes c) ≤ w.now + q.policy.timeout :=
    Nat.add_le_add_left (Nat.le_trans (Nat.min_le_left _ _) (q.inTime c)) _
  have hcall : q.handler c (some (w.now + q.policy.timeout)) w =
      (.done (q.answer c), { w with now := w.now + sleepTime (q.takes c), peers := w.peers ++ [c] }) := by
    unfold Landscape.handler
    rw [Timed.bind_of_done (Timed.sleep_of_inTime (inTime_some.mpr hle))]
    rfl
  refine ⟨{ w with now := w.now + sleepTime (q.takes c), peers := w.peers ++ [c] }, ?_, headerReads_append _ _⟩
  simp [Timed.within, hcall]

theorem finds_of_read {op : String} {c : Call} {r : Relayed c.Answer}
    (h : ∀ w, ∃ w', q.policy.read q.followed op (q.handler c) none w = (.done r, w') ∧
      headerReads w'.peers = headerReads w.peers + n) : q.Finds (Cycle.read op c : Cycle σ c.Answer) r n := by
  intro s w
  obtain ⟨w', hread, hreads⟩ := h w
  exact ⟨w', Timed.bind_of_done hread, hreads⟩

theorem finds_read {op : String} {c : Call} {a : c.Answer} (h : q.answer c = .ok a) :
    q.Finds (Cycle.read op c : Cycle σ c.Answer) (.ok a) (headerReads [c]) := by
  refine finds_of_read fun w => ?_
  obtain ⟨w', hcall, hreads⟩ := q.within_handler c w
  rw [h] at hcall
  obtain ⟨k, hfollowed⟩ := Nat.exists_eq_succ_of_ne_zero (Nat.ne_of_gt (Nat.le_trans (Nat.le_max_left 1 _) q.attempts))
  refine ⟨w', ?_, hreads⟩
  rw [hfollowed]
  exact Retry.loop_of_ends hcall (.inl fun x hx => nomatch hx)

theorem finds_read_error {op : String} {c : Call} {x : RelayError} (h : q.answer c = .error x)
    (hx : ∀ seconds, x ≠ .rateLimited seconds) :
    ∃ m, q.Finds (Cycle.read op c : Cycle σ c.Answer) (.error x) m := by
  have hcall (w : World (List Call)) := q.within_handler c w
  rw [h] at hcall
  have hfollowed : max 1 q.policy.maxAttempts ≤ 0 + q.followed := by
    rw [Nat.zero_add]
    exact q.attempts
  obtain ⟨m, hloop⟩ := Retry.loop_of_failing hx hcall (Nat.le_max_left 1 _) hfollowed
  exact ⟨m, finds_of_read hloop⟩

end Search

def Landscape.ends (p : Landscape) (max : Nat) : Ends := ⟨p.contractBest, p.contractHeight, p.height, max⟩

namespace Search

variable {q : Search} {max height : Nat} {cursor : Hash} {trail : Trail Header} {h : Header}

theorem finds_contractAt (q : Search) (max height : Nat) :
    ∃ held, q.Finds (contractAt (q.ends max) height : Cycle σ (Option Hash)) (.ok held) 0 ∧
      ∀ hash, q.Holds height hash ↔ hash = q.contractBest ∨ height ≤ q.contractHeight ∧ held = some hash := by
  by_cases hle : height ≤ q.contractHeight
  · refine ⟨q.heldAt height, finds_ite (fun _ => ?_) fun hnot => absurd hle hnot, fun hash => Iff.rfl⟩
    exact finds_read (c := .bitcoinClient (.headerHashAt height)) rfl
  · refine ⟨none, finds_ite (fun h => absurd h hle) fun _ => finds_pure none, fun hash => or_congr_right ?_⟩
    exact iff_of_false (fun h => hle h.1) fun h => hle h.1

/-- Where the contract holds the cursor a walk ends, and with nothing if that is where it began. -/
theorem finds_walk_of_holds (hbest : trail.size = 0 → cursor ≠ q.contractBest) (hholds : q.Holds height cursor) :
    q.Finds (walk (q.ends max) height cursor trail : Cycle σ (Option Gap))
      (.ok (if trail.size = 0 then none else some ⟨height, trail.oldestFirst⟩)) 0 := by
  obtain ⟨held, hcontract, hheld⟩ := q.finds_contractAt max height
  obtain ⟨stop, hstop⟩ := exists_walkEnd trail.size ((hheld cursor).mp hholds)
  have hzero := stop_eq_alreadyHeld_iff hbest hstop
  rw [walk]
  refine hcontract.bind (n := 0) ?_
  rw [show walkEnd cursor height trail.size (q.ends max).contractBest (q.ends max).contractHeight held = some stop
    from hstop]
  cases stop with
  | alreadyHeld =>
    rw [if_pos (hzero.mp rfl)]
    exact finds_log _ none
  | linearExtension | forkConvergence =>
    rw [if_neg (mt hzero.mpr (by decide))]
    exact finds_log _ (some (Gap.mk height trail.oldestFirst))

theorem finds_walk_of_bound (hnot : ¬ q.Holds height cursor) (hmax : max ≤ trail.size) :
    q.Finds (walk (q.ends max) height cursor trail : Cycle σ (Option Gap))
      (.error (.forkUnresolved trail.size max)) 0 := by
  obtain ⟨held, hcontract, hheld⟩ := q.finds_contractAt max height
  rw [walk]
  refine hcontract.bind (n := 0) ?_
  rw [show walkEnd cursor height trail.size (q.ends max).contractBest (q.ends max).contractHeight held = none
    from walkEnd_eq_none_iff.mpr (mt (hheld cursor).mpr hnot)]
  exact finds_ite (fun _ => (finds_throw _).bind_error _) fun h => absurd hmax h

/-- Where nothing ends it, a walk goes on with the header at the cursor. -/
theorem finds_walk {r : Relayed (Option Gap)} {n : Nat} (hnot : ¬ q.Holds height cursor) (hmax : ¬ max ≤ trail.size)
    (hrest : q.Finds (do
      let h : Header ← Cycle.read "btc.header" (.bitcoinNode (.header cursor))
      match height with
      | 0 => throw (.inconsistent s!"walked past genesis from height {(q.ends max).chainHeight}")
      | below + 1 => walk (q.ends max) below h.prevHash (trail.push h) : Cycle σ (Option Gap)) r n) :
    q.Finds (walk (q.ends max) height cursor trail : Cycle σ (Option Gap)) r n := by
  obtain ⟨held, hcontract, hheld⟩ := q.finds_contractAt max height
  rw [walk, ← Nat.zero_add n]
  refine hcontract.bind ?_
  rw [show walkEnd cursor height trail.size (q.ends max).contractBest (q.ends max).contractHeight held = none
    from walkEnd_eq_none_iff.mpr (mt (hheld cursor).mpr hnot)]
  exact finds_ite (fun h => absurd h hmax) fun _ => hrest

theorem finds_walk_of_unknown {x : RelayError} (hnot : ¬ q.Holds height cursor) (hmax : ¬ max ≤ trail.size)
    (hcursor : q.header cursor = .error x) (hx : ∀ seconds, x ≠ .rateLimited seconds) :
    ∃ m, q.Finds (walk (q.ends max) height cursor trail : Cycle σ (Option Gap)) (.error x) m := by
  obtain ⟨m, hread⟩ := finds_read_error (c := .bitcoinNode (.header cursor)) hcursor hx
  exact ⟨m, finds_walk hnot hmax (hread.bind_error _)⟩

theorem finds_walk_of_genesis (hnot : ¬ q.Holds 0 cursor) (hmax : ¬ max ≤ trail.size)
    (hcursor : q.header cursor = .ok h) :
    q.Finds (walk (q.ends max) 0 cursor trail : Cycle σ (Option Gap))
      (.error (.inconsistent s!"walked past genesis from height {q.height}")) 1 :=
  finds_walk hnot hmax ((finds_read (c := .bitcoinNode (.header cursor)) hcursor).bind (n := 0) (finds_throw _))

theorem finds_walk_of_known {below : Nat} {r : Relayed (Option Gap)} {n : Nat} (hnot : ¬ q.Holds (below + 1) cursor)
    (hmax : ¬ max ≤ trail.size) (hcursor : q.header cursor = .ok h)
    (hnext : q.Finds (walk (q.ends max) below h.prevHash (trail.push h) : Cycle σ (Option Gap)) r n) :
    q.Finds (walk (q.ends max) (below + 1) cursor trail : Cycle σ (Option Gap)) r (1 + n) :=
  finds_walk hnot hmax ((finds_read (c := .bitcoinNode (.header cursor)) hcursor).bind hnext)

end Search

/-- How a walk stands that has come `n` steps down, without meeting the contract before. -/
structure Came (p : Landscape) (max n height : Nat) (cursor : Hash) (trail : Trail Header) : Prop where
  down : height + n = p.height
  stands : p.ancestor n = some cursor
  branch : p.Branch n trail.oldestFirst
  first : ∀ i < n, ¬ p.Meets i
  bound : n ≤ max
  best : cursor = p.contractBest → n ≠ 0

/-- A walk that has come `n` steps down ends the search, or it is put off where the two sides do not meet. -/
def WalkEnds (σ : Type) (q : Search) (max n height : Nat) (cursor : Hash) (trail : Trail Header) : Prop :=
  (∃ r m, q.Finds (walk (q.ends max) height cursor trail : Cycle σ (Option Gap)) r m ∧
    Ending q.toLandscape max r (n + m)) ∨
    ¬ q.Patient ∧ q.Apart max ∧ q.ancestor max = none

namespace Came

variable {p : Landscape} {max n height : Nat} {cursor : Hash} {trail : Trail Header}

theorem start {max : Nat} (hbest : p.best ≠ p.contractBest) : Came p max 0 p.height p.best .empty where
  down := rfl
  stands := rfl
  branch := .nil p
  first := by simp
  bound := Nat.zero_le _
  best h := absurd h hbest

theorem meets_iff (h : Came p max n height cursor trail) : p.Meets n ↔ p.Holds height cursor := by
  have hdown := h.down
  rw [show height = p.height - n by omega]
  constructor
  · intro hmeets
    exact hmeets.holds h.stands
  · intro hholds
    exact ⟨by omega, cursor, h.stands, hholds⟩

theorem push {header : Header} (h : Came p max n (height + 1) cursor trail) (hnot : ¬ p.Meets n) (hmax : n < max)
    (hh : p.header cursor = .ok header) : Came p max (n + 1) height header.prevHash (trail.push header) where
  down := by
    have := h.down
    omega
  stands := Landscape.ancestor_succ h.stands hh
  branch := h.branch.cons h.stands hh
  first i hi := by
    obtain hlt | rfl := Nat.lt_succ_iff_lt_or_eq.mp hi
    · exact h.first i hlt
    · exact hnot
  bound := hmax
  best _ := Nat.succ_ne_zero n

theorem not_meets (h : Came p max n height cursor trail) (hnot : ¬ p.Meets n) {i : Nat} (hi : i ≤ n) : ¬ p.Meets i := by
  obtain hlt | rfl := Nat.lt_or_eq_of_le hi
  · exact h.first i hlt
  · exact hnot

theorem ending_of_meets (h : Came p max n height cursor trail) (hmeets : p.Meets n) :
    Ending p max (.ok (if n = 0 then none else some ⟨height, trail.oldestFirst⟩)) n := by
  by_cases hzero : n = 0
  · subst hzero
    exact .held hmeets
  · have hdown := h.down
    rw [if_neg hzero, show height = p.height - n by omega]
    exact .branch (Nat.pos_of_ne_zero hzero) h.bound hmeets h.first (.of_meets h.branch hmeets h.first)

/-- Where the walk ends without having met the contract, at its bound or at height zero, the two sides are apart. -/
theorem apart (h : Came p max n height cursor trail) (hnot : ¬ p.Meets n) (hlast : min max p.height ≤ n) :
    p.Apart max := fun _ hi => h.not_meets hnot (Nat.le_trans hi hlast)

/-- Behind a cursor that the node does not know the two sides do not meet. -/
theorem apart_of_unknown {x : RelayError} (h : Came p max n height cursor trail) (hnot : ¬ p.Meets n) (hmax : n < max)
    (hcursor : p.header cursor = .error x) : p.Apart max ∧ p.ancestor max = none := by
  have hnone (i : Nat) (hi : n < i) : p.ancestor i = none := by
    obtain ⟨m, rfl⟩ := Nat.exists_eq_add_of_lt hi
    rw [Nat.add_right_comm]
    exact Landscape.ancestor_eq_none h.stands hcursor m
  refine ⟨fun i _ hi => ?_, hnone max hmax⟩
  obtain hlt | hle := Nat.lt_or_ge n i
  · obtain ⟨-, hash, hancestor, -⟩ := hi
    rw [hnone i hlt] at hancestor
    cases hancestor
  · exact h.not_meets hnot hle hi

variable {q : Search}

theorem walkEnds (h : Came q.toLandscape max n height cursor trail)
    (hnext : ∀ header below, height = below + 1 →
      Came q.toLandscape max (n + 1) below header.prevHash (trail.push header) →
      WalkEnds σ q max (n + 1) below header.prevHash (trail.push header)) :
    WalkEnds σ q max n height cursor trail := by
  have hsize : trail.size = n := h.branch.length
  have hdown := h.down
  by_cases hmeets : q.Meets n
  · refine .inl ⟨_, 0, Search.finds_walk_of_holds (fun h0 hbest => h.best hbest (hsize.symm.trans h0))
      (h.meets_iff.mp hmeets), ?_⟩
    rw [hsize]
    exact h.ending_of_meets hmeets
  have hnot : ¬ q.Holds height cursor := mt h.meets_iff.mpr hmeets
  by_cases hmax : max ≤ n
  · obtain rfl : max = n := Nat.le_antisymm hmax h.bound
    refine .inl ⟨_, 0, Search.finds_walk_of_bound hnot (Nat.le_of_eq hsize.symm), ?_⟩
    rw [hsize]
    exact .failed (h.apart hmeets (Nat.min_le_left _ _)) fun _ _ => ⟨rfl, rfl⟩
  have hlt : n < max := Nat.not_le.mp hmax
  rw [← hsize] at hmax
  cases hcursor : q.header cursor with
  | error x =>
    obtain ⟨hapart, hnone⟩ := h.apart_of_unknown hmeets hlt hcursor
    by_cases hx : ∃ seconds, x = .rateLimited seconds
    · obtain ⟨seconds, rfl⟩ := hx
      exact .inr ⟨fun hpatient => hpatient cursor seconds hcursor, hapart, hnone⟩
    · obtain ⟨m, hfinds⟩ := Search.finds_walk_of_unknown hnot hmax hcursor (not_exists.mp hx)
      refine .inl ⟨_, m, hfinds, .failed hapart fun _ hsome => ?_⟩
      rw [hnone] at hsome
      cases hsome
  | ok header =>
    cases height with
    | zero =>
      refine .inl ⟨_, 1, Search.finds_walk_of_genesis hnot hmax hcursor, .failed (h.apart hmeets ?_) fun _ => ?_⟩
      · omega
      · omega
    | succ below =>
      obtain ⟨r, m, hfinds, hending⟩ | hoff := hnext header below rfl (h.push hmeets hlt hcursor)
      · refine .inl ⟨r, 1 + m, Search.finds_walk_of_known hnot hmax hcursor hfinds, ?_⟩
        rwa [← Nat.add_assoc]
      · exact .inr hoff

/-- A walk ends as a search does. The induction is on the height, which is one less after each step. -/
theorem ends (h : Came q.toLandscape max n height cursor trail) : WalkEnds σ q max n height cursor trail := by
  induction height generalizing n cursor trail with
  | zero => exact h.walkEnds fun _ _ h => nomatch h
  | succ below ih =>
    refine h.walkEnds fun header below' hbelow hnext => ?_
    cases hbelow
    exact ih hnext

end Came

theorem Search.finds_findGap {q : Search} {config : Config} {r : Relayed (Option Gap)} {n : Nat}
    (hsame : q.best = q.contractBest → r = .ok none ∧ n = 0)
    (hwalk : q.best ≠ q.contractBest →
      q.Finds (walk (q.ends config.maxWalkBack) q.height q.best .empty : Cycle σ (Option Gap)) r n) :
    q.Finds (findGap config : Cycle σ (Option Gap)) r n := by
  have hreads : 0 + (0 + (0 + n)) = n := by omega
  rw [← hreads]
  refine (finds_read (c := .bitcoinClient .bestHeaderHash) rfl).bind ?_
  refine (finds_read (c := .bitcoinClient .bestHeight) rfl).bind ?_
  refine (finds_read (c := .bitcoinNode .bestBlockHash) rfl).bind ?_
  refine finds_ite (fun hbest => ?_) fun hbest => ?_
  · obtain ⟨rfl, rfl⟩ := hsame hbest
    exact finds_pure none
  · rw [← Nat.zero_add n]
    exact (finds_read (c := .bitcoinNode (.headerHeight q.best)) (if_pos rfl)).bind (hwalk hbest)

theorem ending_findGap (σ : Type) (q : Search) (config : Config) :
    (∃ r n, q.Finds (findGap config : Cycle σ (Option Gap)) r n ∧ Ending q.toLandscape config.maxWalkBack r n) ∨
      ¬ q.Patient ∧ q.Apart config.maxWalkBack ∧ q.ancestor config.maxWalkBack = none := by
  by_cases hbest : q.best = q.contractBest
  · refine .inl ⟨.ok none, 0, Search.finds_findGap (fun _ => ⟨rfl, rfl⟩) (absurd hbest), .held ?_⟩
    exact ⟨Nat.zero_le _, q.best, rfl, .inl hbest⟩
  · have hstart : Came q.toLandscape config.maxWalkBack 0 q.height q.best .empty := .start hbest
    obtain ⟨r, m, hfinds, hending⟩ | hoff := hstart.ends (σ := σ)
    · rw [Nat.zero_add] at hending
      exact .inl ⟨r, m, Search.finds_findGap (fun h => absurd h hbest) fun _ => hfinds, hending⟩
    · exact .inr hoff

/-- The three ways exclude each other, so where the two sides meet tells how a search ends. -/
theorem Ending.of_meets {p : Landscape} {max reads : Nat} {r : Relayed (Option Gap)} (h : Ending p max r reads) :
    (p.Meets 0 → r = .ok none ∧ reads = 0) ∧
      (∀ n, 0 < n → n ≤ min max p.height → p.Meets n → (∀ i < n, ¬ p.Meets i) →
        ∃ g, r = .ok (some g) ∧ MissingBranch p n g ∧ reads = n) ∧
      (p.Apart max → ∃ x, r = .error x ∧
        (max ≤ p.height → (p.ancestor max).isSome → x = .forkUnresolved max max ∧ reads = max)) := by
  cases h with
  | held hmeets =>
    refine ⟨fun _ => ⟨rfl, rfl⟩, fun n hpos _ _ hfirst => absurd hmeets (hfirst 0 hpos), fun hnot => ?_⟩
    exact absurd hmeets (hnot 0 (Nat.zero_le _))
  | branch hpos hmax hmeets hfirst hg =>
    refine ⟨fun h => absurd h (hfirst 0 hpos), fun n _ _ hmeets' hfirst' => ?_, fun hnot => ?_⟩
    · obtain rfl : reads = n :=
        Nat.le_antisymm (Nat.not_lt.mp fun h => hfirst n h hmeets') (Nat.not_lt.mp fun h => hfirst' reads h hmeets)
      exact ⟨_, rfl, hg, rfl⟩
    · exact absurd hmeets (hnot reads (Nat.le_min.mpr ⟨hmax, hmeets.1⟩))
  | failed hnot hfork =>
    exact ⟨fun h => absurd h (hnot 0 (Nat.zero_le _)), fun n _ hle h _ => absurd h (hnot n hle),
      fun _ => ⟨_, rfl, hfork⟩⟩

/-- **The missing branch.** Whenever a search for the gap is run: if the two sides meet at the node's best header, there
is no gap, and no header is asked for; if they meet first `n` steps back, and the walk may go so far, the gap is the
branch of these `n` headers, which are asked for once each; and if they do not meet so far, the search fails, at its
bound if the headers on the way are known, and in any case unless the node keeps asking for pauses. -/
theorem missing_branch_found (q : Search) (config : Config) :
    (q.Meets 0 → q.Finds (findGap config : Cycle σ (Option Gap)) (.ok none) 0) ∧
      (∀ n, 0 < n → n ≤ min config.maxWalkBack q.height → q.Meets n → (∀ i < n, ¬ q.Meets i) →
        ∃ g, q.Finds (findGap config : Cycle σ (Option Gap)) (.ok (some g)) n ∧ MissingBranch q.toLandscape n g) ∧
      ((∀ n ≤ min config.maxWalkBack q.height, ¬ q.Meets n) →
        (config.maxWalkBack ≤ q.height → (q.ancestor config.maxWalkBack).isSome →
          q.Finds (findGap config : Cycle σ (Option Gap))
            (.error (.forkUnresolved config.maxWalkBack config.maxWalkBack)) config.maxWalkBack) ∧
        (q.Patient → ∃ x n, q.Finds (findGap config : Cycle σ (Option Gap)) (.error x) n)) := by
  obtain ⟨r, reads, hfinds, hending⟩ | ⟨himpatient, hapart, hnone⟩ := ending_findGap σ q config
  · obtain ⟨hheld, hbranch, hfailed⟩ := hending.of_meets
    refine ⟨fun hmeets => ?_, fun n hpos hle hmeets hfirst => ?_, fun hnot => ?_⟩
    · obtain ⟨rfl, rfl⟩ := hheld hmeets
      exact hfinds
    · obtain ⟨g, rfl, hg, rfl⟩ := hbranch n hpos hle hmeets hfirst
      exact ⟨g, hfinds, hg⟩
    · obtain ⟨x, rfl, hfork⟩ := hfailed hnot
      refine ⟨fun hle hsome => ?_, fun _ => ⟨x, reads, hfinds⟩⟩
      obtain ⟨rfl, hreads⟩ := hfork hle hsome
      rwa [hreads] at hfinds
  · refine ⟨fun hmeets => absurd hmeets (hapart 0 (Nat.zero_le _)),
      fun n _ hle hmeets _ => absurd hmeets (hapart n hle), fun _ => ⟨fun _ hsome => ?_, fun h => absurd h himpatient⟩⟩
    rw [hnone] at hsome
    cases hsome

/-- A node that knows these headers only, and a contract; each answer takes ten milliseconds. -/
def Landscape.knowing (headers : List Header) (best : Hash) (height : Nat) (contractBest : Hash)
    (contractHeight : Nat) (heldAt : Nat → Option Hash) : Landscape where
  best := best
  height := height
  header hash := ((headers.find? (·.hash = hash)).map Except.ok).getD (.error (.headerNotFound hash.hex))
  contractBest := contractBest
  contractHeight := contractHeight
  heldAt := heldAt
  takes _ := 10
  honest {hash h} hh := by
    cases hfind : headers.find? (·.hash = hash) with
    | none =>
      rw [hfind] at hh
      cases hh
    | some found =>
      rw [hfind] at hh
      cases hh
      exact of_decide_eq_true (List.find?_some (p := fun h : Header => decide (h.hash = hash)) hfind)

/-- A search between a node and a contract whose last two headers are of different branches. -/
def forked : Search where
  toLandscape := .knowing [⟨.replicate 5, .replicate 4, .zero, []⟩, ⟨.replicate 4, .replicate 3, .zero, []⟩]
    (.replicate 5) 5 (.replicate 15) 5 fun height =>
      some (.replicate (if height ≤ 3 then .ofNat height else .ofNat (10 + height)))
  followed := 3
  policy := ⟨1000, 3, 10⟩
  attempts := by decide
  inTime _ := show 10 ≤ 1000 by decide

/-- The two headers of the node's branch are found. -/
theorem forked_branch_found :
    (∀ i < 2, ¬ forked.Meets i) ∧ forked.Meets 2 ∧
      ∃ g, forked.Finds (findGap ⟨10, 6, ⟨0⟩, none⟩ : Cycle Unit (Option Gap)) (.ok (some g)) 2 ∧
        MissingBranch forked.toLandscape 2 g := by
  have hfirst : ∀ i < 2, ¬ forked.Meets i := by decide
  have hmeets : forked.Meets 2 := by decide
  obtain ⟨-, hfound, -⟩ := missing_branch_found (σ := Unit) forked ⟨10, 6, ⟨0⟩, none⟩
  exact ⟨hfirst, hmeets, hfound 2 (by decide) (by decide) hmeets hfirst⟩

end Sync.Bitcoin

end HeaderRelay
