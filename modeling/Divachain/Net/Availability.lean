/-
  Divachain.Net.Availability — the pings of a peer, and the stake it gets for them.

  `processStatus` notes when the statuses of a peer come in.  Once there are
  `STAKE_PING_SAMPLE_SIZE` times it looks at how they are spread, proposes a
  stake increase if they are spread as wanted, and keeps two thirds of them.
  `Monitor` is a node with these notes: they decide what `Turn.pingVote` left
  open.

  Main results:
    * `wanted_iff` — the spread that is wanted, in terms of the times;
    * `Reaches.node` — whatever the notes say, it is a run of the node;
    * `Reaches.noted` — the notes are a sampler's history of what came in;
    * `pings_limited` — a peer gets one proposal for eleven statuses at most;
    * `steady_pings_vote` — a peer with steady pings gets all of them.
-/
import Mathlib.Algebra.Order.Field.Basic
import Mathlib.Algebra.Order.Field.Rat
import Mathlib.Data.List.GetD
import Mathlib.Tactic.Linarith
import Mathlib.Tactic.Ring
import Divachain.Lib.Sampler
import Divachain.Net.Credits

namespace Divachain

open DataKit

def STAKE_PING_SAMPLE_SIZE : Nat := 32

/-- `0.4`. -/
def STAKE_PING_QUARTILE_COEFF_MIN : ℚ := 2 / 5

/-- `0.6`. -/
def STAKE_PING_QUARTILE_COEFF_MAX : ℚ := 3 / 5

/-! ## §1. The spread of the times. -/

/-- `as[k] - as[0]`. -/
def quartile (as : List Nat) (k : Nat) : ℚ := (as.getD k 0 : ℚ) - (as.getD 0 0 : ℚ)

/-- `Util.QuartileCoeff` of times in milliseconds; `none` where the code throws,
`some none` for `NaN`.  A quotient of such times is never so close to one of the
bounds that rounding would reach it. -/
def quartileCoeff (array : List Nat) : Option (Option ℚ) :=
  if array.length < 4 then none
  else
    let as := array.insertionSort (· ≤ ·)
    let qi1 := quartile as (array.length / 4)
    let qi3 := quartile as (3 * array.length / 4)
    -- Neither is negative, so the sum is 0 only where both are: 0 / 0.
    some (if qi3 + qi1 = 0 then none else some ((qi3 - qi1) / (qi3 + qi1)))

/-- The coefficient is in range.  No comparison with `NaN` is true. -/
def wanted (a : List Nat) : Bool :=
  match quartileCoeff a with
  | some (some qc) =>
      decide (STAKE_PING_QUARTILE_COEFF_MIN ≤ qc) && decide (qc ≤ STAKE_PING_QUARTILE_COEFF_MAX)
  | _ => false

/-- **Which spread is wanted**: the first quarter of the times and the half after
it are of one pace, up to one half more or less.  The last quarter does not
matter, and times that are all the same are not wanted. -/
theorem wanted_iff {a : List Nat} (hlength : 4 ≤ a.length) (hsorted : a.Pairwise (· ≤ ·))
    {x y : Nat} (hx : a.getD (a.length / 4) 0 = a.getD 0 0 + x)
    (hy : a.getD (3 * a.length / 4) 0 = a.getD 0 0 + x + y) :
    wanted a = true ↔ 0 < x + y ∧ y ≤ 3 * x ∧ 4 * x ≤ 3 * y := by
  have hsort : a.insertionSort (· ≤ ·) = a := hsorted.insertionSort_eq
  have hqi1 : quartile a (a.length / 4) = (x : ℚ) := by
    rw [quartile, hx, Nat.cast_add]
    ring
  have hqi3 : quartile a (3 * a.length / 4) = (x : ℚ) + y := by
    rw [quartile, hy, Nat.cast_add, Nat.cast_add]
    ring
  unfold wanted quartileCoeff
  rw [if_neg (by omega)]
  dsimp only
  rw [hsort, hqi1, hqi3]
  have hx0 : (0 : ℚ) ≤ x := Nat.cast_nonneg x
  have hy0 : (0 : ℚ) ≤ y := Nat.cast_nonneg y
  by_cases hzero : x + y = 0
  · have hboth : x = 0 ∧ y = 0 := by omega
    rw [hboth.1, hboth.2]
    simp
  · have hpos : (0 : ℚ) < x + y := by
      have hcast : (0 : ℚ) < ((x + y : Nat) : ℚ) := Nat.cast_pos.mpr (Nat.pos_of_ne_zero hzero)
      rwa [Nat.cast_add] at hcast
    have hsum : (0 : ℚ) < x + y + x := by linarith
    rw [if_neg hsum.ne', Bool.and_eq_true, decide_eq_true_eq, decide_eq_true_eq,
      STAKE_PING_QUARTILE_COEFF_MIN, STAKE_PING_QUARTILE_COEFF_MAX, le_div_iff₀ hsum,
      div_le_iff₀ hsum]
    have hlow : (2 / 5 * ((x : ℚ) + y + x) ≤ x + y - x) ↔ 4 * x ≤ 3 * y := by
      rw [← Nat.cast_le (α := ℚ), Nat.cast_mul, Nat.cast_mul, Nat.cast_ofNat, Nat.cast_ofNat]
      constructor <;> intro h <;> linarith
    have hhigh : ((x : ℚ) + y - x ≤ 3 / 5 * (x + y + x)) ↔ y ≤ 3 * x := by
      rw [← Nat.cast_le (α := ℚ), Nat.cast_mul, Nat.cast_ofNat]
      constructor <;> intro h <;> linarith
    rw [hlow, hhigh]
    constructor
    · intro h
      exact ⟨Nat.pos_of_ne_zero hzero, h.2, h.1⟩
    · intro h
      exact ⟨h.2.2, h.2.1⟩

/-- One time follows the other after `lo` at least and `hi` at most. -/
def Steady (lo hi : Nat) (times : List Nat) : Prop :=
  times.IsChain fun s t => s + lo ≤ t ∧ t ≤ s + hi

instance (lo hi : Nat) (times : List Nat) : Decidable (Steady lo hi times) :=
  inferInstanceAs (Decidable (List.IsChain _ _))

namespace Steady

variable {lo hi : Nat} {times : List Nat}

theorem pairwise (h : Steady lo hi times) : times.Pairwise (· ≤ ·) := by
  rw [← List.isChain_iff_pairwise]
  exact h.imp fun s t hst => le_trans (Nat.le_add_right s lo) hst.1

/-- Steady times are apart by as many gaps. -/
theorem getD_le (h : Steady lo hi times) (i k : Nat) (hik : i + k < times.length) :
    times.getD i 0 + lo * k ≤ times.getD (i + k) 0
      ∧ times.getD (i + k) 0 ≤ times.getD i 0 + hi * k := by
  induction k with
  | zero => exact ⟨le_rfl, le_rfl⟩
  | succ k ih =>
    have hbefore : i + k + 1 < times.length := hik
    obtain ⟨hlow, hhigh⟩ := ih (by omega)
    obtain ⟨hgap, hgap'⟩ := List.isChain_iff_getElem.mp h (i + k) hbefore
    rw [← times.getD_eq_getElem 0 (Nat.lt_of_succ_lt hbefore), ← times.getD_eq_getElem 0 hbefore]
      at hgap hgap'
    rw [Nat.mul_succ, Nat.mul_succ, ← Nat.add_assoc i k 1]
    exact ⟨by omega, by omega⟩

theorem window (h : Steady lo hi times) (j k : Nat) : Steady lo hi ((times.drop j).take k) :=
  (List.IsChain.drop h j).take k

/-- **Steady times are wanted**, if no gap is more than half as long again as another. -/
theorem wanted (h : Steady lo hi times) (hlo : 0 < lo) (hratio : 2 * hi ≤ 3 * lo)
    (hlength : times.length = STAKE_PING_SAMPLE_SIZE) : wanted times = true := by
  have hlength : times.length = 32 := hlength
  have hfirst : times.getD 0 0 + lo * 8 ≤ times.getD 8 0
      ∧ times.getD 8 0 ≤ times.getD 0 0 + hi * 8 := h.getD_le 0 8 (by omega)
  have hhalf : times.getD 8 0 + lo * 16 ≤ times.getD 24 0
      ∧ times.getD 24 0 ≤ times.getD 8 0 + hi * 16 := h.getD_le 8 16 (by omega)
  obtain ⟨x, hx⟩ : ∃ x, times.getD 8 0 = times.getD 0 0 + x :=
    Nat.exists_eq_add_of_le (by omega)
  obtain ⟨y, hy⟩ : ∃ y, times.getD 24 0 = times.getD 0 0 + x + y :=
    Nat.exists_eq_add_of_le (by omega)
  have hx' : times.getD (times.length / 4) 0 = times.getD 0 0 + x := by
    rw [hlength]
    exact hx
  have hy' : times.getD (3 * times.length / 4) 0 = times.getD 0 0 + x + y := by
    rw [hlength]
    exact hy
  rw [wanted_iff (by omega) h.pairwise hx' hy']
  omega

end Steady

/-! ## §2. A node that notes the times. -/

/-- What `processStatus` does with the times of a peer: what it keeps, and
whether it places a vote. -/
def recordStatus (a : List Nat) (now : Nat) : List Nat × Bool :=
  let a := a ++ [now]
  if STAKE_PING_SAMPLE_SIZE ≤ a.length then
    -- `QuartileCoeff` has sorted the array in place when its end is taken
    let sorted := a.insertionSort (· ≤ ·)
    (sorted.drop (sorted.length - 2 * a.length / 3), wanted a)
  else (a, false)

/-- Samples of `STAKE_PING_SAMPLE_SIZE` times, of which two thirds stay. -/
def pingSampler : Sampler :=
  { size := STAKE_PING_SAMPLE_SIZE, keep := 21, keep_lt := by decide }

/-- The first sample is taken at the 32nd status, and the next one 11 later. -/
theorem length_pingSamples (times : List Nat) :
    (pingSampler.samples times).length = (times.length - 21) / 11 :=
  pingSampler.length_samples times

theorem wanted_insertionSort (a : List Nat) : wanted (a.insertionSort (· ≤ ·)) = wanted a := by
  have hsort : (a.insertionSort (· ≤ ·)).insertionSort (· ≤ ·) = a.insertionSort (· ≤ ·) :=
    (List.pairwise_insertionSort _ a).insertionSort_eq
  unfold wanted quartileCoeff
  rw [List.length_insertionSort]
  dsimp only
  rw [hsort]

/-- **The code is the sampler**, as long as a sample has not been passed over. -/
theorem recordStatus_eq {a : List Nat} (h : a.length < STAKE_PING_SAMPLE_SIZE) (now : Nat) :
    recordStatus a now = (pingSampler.push a now, (pingSampler.sample a now).any wanted) := by
  have hlength : (a ++ [now]).length = a.length + 1 := by
    rw [List.length_append, List.length_singleton]
  unfold recordStatus
  dsimp only
  rcases Nat.lt_or_eq_of_le (show a.length + 1 ≤ STAKE_PING_SAMPLE_SIZE from h) with hmore | hfull
  · rw [if_neg (by omega), pingSampler.push_of_lt hmore, pingSampler.sample_of_lt hmore]
    rfl
  · rw [if_pos (by omega), pingSampler.push_of_eq hfull, pingSampler.sample_of_eq hfull,
      List.length_insertionSort, hlength, hfull, Option.any_some, wanted_insertionSort]
    rfl

/-- The peer whose ONLINE status comes in. -/
def Node.pingOf (n : Node) : Node.Event → Option Text
  | .message m =>
      match m.data with
      | .status kind _ =>
          if n.halted = false ∧ validateMessage m = true ∧ kind = ONLINE then some m.origin else none
      | _ => none
  | _ => none

/-- A node, its notes, and the record of what they are about. -/
structure Monitor extends Node where
  mapAvailability : OrdMap Text (List Nat)
  /-- Every ONLINE status that has come in, and when. -/
  statuses : List (Text × Nat)
  /-- The peers whose sample was as wanted. -/
  votes : List Text

namespace Monitor

open Node (Event AnyTurn pingOf)

def start (chain : Blockchain) : Monitor :=
  { Node.start chain with mapAvailability := .empty, statuses := [], votes := [] }

/-- `mapAvailability.get(origin) || []`. -/
def noted (m : Monitor) (origin : Text) : List Nat := (m.mapAvailability.get? origin).getD []

/-- The times at which statuses of the peer have come in. -/
def times (m : Monitor) (origin : Text) : List Nat :=
  (m.statuses.filter fun s => decide (s.1 = origin)).map Prod.snd

section

variable (crypto : Crypto)

/-- One turn of the node.  A turn in which the process ends leaves notes that
nobody reads any more. -/
def step (m : Monitor) (turn : Turn) (e : Event) : Monitor :=
  match m.pingOf e with
  | none => { m with toNode := m.toNode.step crypto { turn with pingVote := false } e }
  | some origin =>
      let r := recordStatus (m.noted origin) turn.now
      { toNode := m.toNode.step crypto { turn with pingVote := r.2 } e
        mapAvailability := m.mapAvailability.set origin r.1
        statuses := m.statuses ++ [(origin, turn.now)]
        votes := if r.2 then m.votes ++ [origin] else m.votes }

/-- The states that can be reached by turns that are all `ok` where they happen. -/
inductive Reaches (ok : Node → Turn → Event → Prop) (m₀ : Monitor) : Monitor → Prop where
  | refl : Reaches ok m₀ m₀
  | step {m : Monitor} (h : Reaches ok m₀ m) (turn : Turn) (e : Event) (hok : ok m.toNode turn e) :
      Reaches ok m₀ (m.step crypto turn e)

def run (m : Monitor) (l : List (Turn × Event)) : Monitor :=
  l.foldl (fun m x => m.step crypto x.1 x.2) m

theorem reaches_run {ok : Node → Turn → Event → Prop} {m₀ m : Monitor} (h : Reaches crypto ok m₀ m)
    {l : List (Turn × Event)} (hl : ∀ x ∈ l, ∀ n, ok n x.1 x.2) :
    Reaches crypto ok m₀ (m.run crypto l) := by
  induction l generalizing m with
  | nil => exact h
  | cons x l ih =>
    refine ih (h.step x.1 x.2 (hl x List.mem_cons_self _)) ?_
    intro y hy
    exact hl y (List.mem_cons_of_mem x hy)

end

variable {crypto : Crypto} {m : Monitor} {turn : Turn} {e : Event} {origin : Text}

theorem step_of_none (h : m.pingOf e = none) :
    m.step crypto turn e
      = { m with toNode := m.toNode.step crypto { turn with pingVote := false } e } := by
  unfold step
  rw [h]

theorem step_of_some (h : m.pingOf e = some origin) :
    m.step crypto turn e
      = { toNode := m.toNode.step crypto
            { turn with pingVote := (recordStatus (m.noted origin) turn.now).2 } e
          mapAvailability :=
            m.mapAvailability.set origin (recordStatus (m.noted origin) turn.now).1
          statuses := m.statuses ++ [(origin, turn.now)]
          votes := if (recordStatus (m.noted origin) turn.now).2 then m.votes ++ [origin]
            else m.votes } := by
  unfold step
  rw [h]

/-- **The notes only choose among the turns that a node can take.** -/
theorem Reaches.node {ok : Node → Turn → Event → Prop} {m₀ : Monitor} (h : Reaches crypto ok m₀ m) :
    Node.Reaches crypto AnyTurn m₀.toNode m.toNode := by
  induction h with
  | refl => exact .refl
  | @step m h turn e hok ih =>
    cases hping : m.pingOf e with
    | none =>
      rw [step_of_none hping]
      exact ih.step _ e trivial
    | some origin =>
      rw [step_of_some hping]
      exact ih.step _ e trivial

/-! ## §3. The notes are a sampler's history. -/

theorem times_step_self (h : m.pingOf e = some origin) :
    (m.step crypto turn e).times origin = m.times origin ++ [turn.now] := by
  rw [step_of_some h]
  simp [times]

theorem times_step_ne (h : m.pingOf e = some origin) {k : Text} (hk : k ≠ origin) :
    (m.step crypto turn e).times k = m.times k := by
  rw [step_of_some h]
  simp [times, Ne.symm hk]

/-- What the notes and the votes for a peer are. -/
def Noted (m : Monitor) (k : Text) : Prop :=
  m.noted k = pingSampler.history (m.times k)
    ∧ m.votes.count k = (pingSampler.samples (m.times k)).countP wanted

theorem noted_start (chain : Blockchain) (k : Text) : Noted (start chain) k := ⟨rfl, rfl⟩

theorem Noted.step {k : Text} (h : Noted m k) : Noted (m.step crypto turn e) k := by
  obtain ⟨hnoted, hvotes⟩ := h
  cases hping : m.pingOf e with
  | none =>
    rw [step_of_none hping]
    exact ⟨hnoted, hvotes⟩
  | some origin =>
    by_cases hk : k = origin
    · subst hk
      obtain ⟨-, hlt, -⟩ := pingSampler.length_history_add (m.times k)
      have hrecord := recordStatus_eq hlt turn.now
      rw [← hnoted] at hrecord
      refine ⟨?_, ?_⟩
      · rw [times_step_self hping, Sampler.history_concat, ← hnoted, step_of_some hping, hrecord]
        show ((m.mapAvailability.set k _).get? k).getD [] = _
        rw [OrdMap.get?_set_self]
        rfl
      · rw [times_step_self hping, Sampler.samples_concat, List.countP_append, ← hvotes, ← hnoted,
          step_of_some hping, hrecord]
        dsimp only
        cases pingSampler.sample (m.noted k) turn.now with
        | none => rfl
        | some a =>
          rw [Option.any_some, Option.toList_some, List.countP_singleton]
          split
          · rw [List.count_append, List.count_singleton_self]
          · rfl
    · refine ⟨?_, ?_⟩
      · rw [times_step_ne hping hk, ← hnoted, step_of_some hping]
        show ((m.mapAvailability.set origin _).get? k).getD [] = _
        rw [OrdMap.get?_set_ne _ _ hk]
        rfl
      · rw [times_step_ne hping hk, ← hvotes, step_of_some hping]
        dsimp only
        split
        · rw [List.count_append, List.count_singleton, if_neg (by simpa using Ne.symm hk)]
          rfl
        · rfl

/-- **In every run** the notes of a peer are the history of its statuses, and it
gets a vote for each sample that is as wanted. -/
theorem Reaches.noted {ok : Node → Turn → Event → Prop} {chain : Blockchain}
    (h : Reaches crypto ok (start chain) m) (k : Text) : Noted m k := by
  induction h with
  | refl => exact noted_start chain k
  | step h turn e hok ih => exact ih.step

/-- **How much is noted, and how often it is judged**, whatever the times are. -/
theorem Reaches.sizes {ok : Node → Turn → Event → Prop} {chain : Blockchain}
    (h : Reaches crypto ok (start chain) m) (k : Text) :
    (m.noted k).length = (m.times k).length - 11 * (((m.times k).length - 21) / 11)
      ∧ m.votes.count k ≤ ((m.times k).length - 21) / 11 := by
  obtain ⟨hnoted, hvotes⟩ := h.noted k
  refine ⟨?_, ?_⟩
  · rw [hnoted]
    exact pingSampler.length_history (m.times k)
  · rw [hvotes, ← length_pingSamples]
    exact List.countP_le_length

end Monitor

/-! ## §4. What comes of the votes. -/

namespace Node

/-- The stake proposals for the pings of a peer that wait or have been accepted. -/
def pinged (n : Node) (k : Text) : Nat :=
  n.stackModifyStake.countP (proposes k STAKE_PING_IDENT)
    + (n.accepted.flatMap RecordStack.commands).countP (proposes k STAKE_PING_IDENT)

/-- An API call that makes such a proposal itself. -/
def Event.asksPing (k : Text) : Event → Bool
  | .stackTx commands _ => commands.any (proposes k STAKE_PING_IDENT)
  | _ => false

variable {crypto : Crypto} {n m : Node} {turn : Turn} {k : Text}

theorem pinged_congr (hqueue : m.stackModifyStake = n.stackModifyStake)
    (haccepted : m.accepted = n.accepted) : m.pinged k = n.pinged k := by
  unfold pinged
  rw [hqueue, haccepted]

theorem pinged_of_server (h : m.server = n.server) : m.pinged k = n.pinged k :=
  pinged_congr (congrArg (fun x => x.2.1) h) (congrArg (fun x => x.2.2) h)

theorem pinged_andThen {f : Node → Node} (h : ∀ j : Node, (f j).pinged k = j.pinged k) :
    (n.andThen f).pinged k = n.pinged k := andThen_frame n (fun j => j.pinged k) h

theorem countP_proposes_numbered (ident : Text) (commands : List Command) :
    (numbered commands).countP (proposes k ident) = commands.countP (proposes k ident) := by
  have hfst : commands.countP (proposes k ident)
      = (commands.zipIdx.map Prod.fst).countP (proposes k ident) := by
    rw [List.zipIdx_map_fst]
  rw [hfst, numbered, List.countP_map, List.countP_map]
  rfl

theorem pinged_stackTx (commands : List Command) (ident : Text) :
    (n.stackTx crypto turn commands ident).pinged k
      ≤ n.pinged k + commands.countP (proposes k STAKE_PING_IDENT) := by
  by_cases htakes : Takes crypto n (stackRecord turn commands ident)
  · have hserver := stackTx_server_of_takes n turn htakes
    generalize n.stackTx crypto turn commands ident = j at hserver
    have hqueue : j.stackModifyStake = n.stackModifyStake := congrArg (fun x => x.2.1) hserver
    have hlog : j.accepted = n.accepted ++ [stackRecord turn commands ident] :=
      congrArg (fun x => x.2.2) hserver
    unfold pinged
    rw [hqueue, hlog, List.flatMap_append, List.flatMap_singleton, List.countP_append]
    show _ + (_ + (numbered commands).countP _) ≤ _
    rw [countP_proposes_numbered]
    omega
  · rw [stackTx_of_not_takes n turn htakes]
    exact Nat.le_add_right _ _

/-- A proposal counts if it is for the pings of the peer. -/
def counts (k publicKey ident : Text) : Nat :=
  if publicKey = k ∧ ident = STAKE_PING_IDENT then 1 else 0

theorem countP_queue_ping (publicKey ident : Text) (stake : Int) :
    (n.queue publicKey ident stake).countP (proposes k STAKE_PING_IDENT)
      = n.stackModifyStake.countP (proposes k STAKE_PING_IDENT) + counts k publicKey ident := by
  unfold queue counts
  rw [List.countP_append, List.countP_singleton]
  simp [proposes, stakeCommand]

/-- **A proposal adds itself and no more**: the queue that leaves is the one that is emptied. -/
theorem pinged_proposeModifyStake (hrun : n.halted = false) (publicKey ident : Text) (stake : Int)
    (hgoes : (n.proposeModifyStake crypto turn publicKey ident stake).halted = false) :
    (n.proposeModifyStake crypto turn publicKey ident stake).pinged k
      ≤ n.pinged k + counts k publicKey ident := by
  have hproposed := proposed hrun turn publicKey ident stake hgoes
  generalize n.proposeModifyStake crypto turn publicKey ident stake = j at hproposed
  have hqueue := n.countP_queue_ping (k := k) publicKey ident stake
  unfold pinged
  cases hproposed with
  | refused hno h =>
      rw [h]
      exact Nat.le_add_right _ _
  | waits hqueues hno h =>
      rw [h]
      show (n.queue publicKey ident stake).countP _ + _ ≤ _
      rw [hqueue]
      show _ + (n.accepted.flatMap _).countP _ ≤ _
      omega
  | accepted hleaves htakes h =>
      have hempty : j.stackModifyStake = [] := congrArg (fun x => x.2.1) h
      have hlog : j.accepted = n.accepted
          ++ [stackRecord turn (n.queue publicKey ident stake) []] := congrArg (fun x => x.2.2) h
      rw [hempty, hlog, List.flatMap_append, List.flatMap_singleton, List.countP_append,
        List.countP_nil]
      show 0 + (_ + (numbered (n.queue publicKey ident stake)).countP _) ≤ _
      rw [countP_proposes_numbered, hqueue]
      omega
  | lost hleaves hno h =>
      rw [h]
      show ([] : List Command).countP _ + (n.accepted.flatMap _).countP _ ≤ _
      rw [List.countP_nil]
      omega

theorem halted_of_andThen {f : Node → Node} (h : (n.andThen f).halted = false) :
    n.halted = false := by
  unfold andThen at h
  split at h
  · exact h
  next hhalted => exact Bool.eq_false_iff.mpr hhalted

/-- The stake vote of `updateCache` has another identifier. -/
theorem pinged_updateCache (hrun : n.halted = false) (b : BlockStruct)
    (hgoes : (n.updateCache crypto turn b).halted = false) :
    (n.updateCache crypto turn b).pinged k ≤ n.pinged k := by
  unfold updateCache at hgoes ⊢
  dsimp only at hgoes ⊢
  generalize (n.chain.cacheBlock b).countVotes b = chain at hgoes ⊢
  cases hvote : chain.stakeVote b with
  | skip => exact le_of_eq (pinged_congr rfl rfl)
  | throws =>
      rw [hvote] at hgoes
      exact nomatch hgoes
  | propose publicKey =>
      rw [hvote] at hgoes
      have hpropose := (n.setChain chain).pinged_proposeModifyStake (k := k) hrun publicKey
        STAKE_VOTE_IDENT STAKE_VOTE_AMOUNT (halted_of_andThen hgoes)
      have hother : counts k publicKey STAKE_VOTE_IDENT = 0 := if_neg fun h => absurd h.2 (by decide)
      rw [hother] at hpropose
      unfold settleVote
      dsimp only
      refine le_trans (le_of_eq (pinged_andThen ?_)) hpropose
      intro j
      split
      · exact pinged_congr rfl rfl
      · rfl

theorem pinged_finishAdd (hrun : n.halted = false) (i : Nat) (t : AddTask)
    (hgoes : (n.finishAdd crypto turn i t).halted = false) :
    (n.finishAdd crypto turn i t).pinged k ≤ n.pinged k := by
  unfold finishAdd at hgoes ⊢
  dsimp only at hgoes ⊢
  split at hgoes
  · exact nomatch hgoes
  next hm =>
    rw [if_neg hm]
    refine le_trans (le_of_eq ((pinged_andThen ?_).trans ?_))
      (pinged_updateCache hrun (n.objects t.obj) (Bool.eq_false_iff.mpr hm))
    · intro j
      exact pinged_congr rfl rfl
    · rw [pinged_of_server (calcValidator_server _ turn)]
      exact pinged_congr rfl rfl

theorem pinged_resumeAdd (hrun : n.halted = false) (i : Nat)
    (hgoes : (n.resumeAdd crypto turn i).halted = false) :
    (n.resumeAdd crypto turn i).pinged k ≤ n.pinged k := by
  unfold resumeAdd at hgoes ⊢
  cases htask : n.adds[i]? with
  | none => exact le_rfl
  | some t =>
      rw [htask] at hgoes
      dsimp only at hgoes ⊢
      cases hpending : n.pending t with
      | some oc => exact le_of_eq (pinged_congr rfl rfl)
      | none =>
          rw [hpending] at hgoes
          exact pinged_finishAdd hrun i t hgoes

theorem pinged_processStatus (hrun : n.halted = false) (origin : Text) (kind height : Nat)
    (hgoes : (n.processStatus crypto turn origin kind height).halted = false) {j : Nat}
    (hj : kind = ONLINE → origin = k → turn.pingVote = true → 1 ≤ j) :
    (n.processStatus crypto turn origin kind height).pinged k ≤ n.pinged k + j := by
  unfold processStatus at hgoes ⊢
  dsimp only at hgoes ⊢
  by_cases hkind : kind = ONLINE
  swap
  · rw [if_neg hkind]
    exact Nat.le_add_right _ _
  rw [if_pos hkind] at hgoes ⊢
  set m : Node := { n with toConsensus := n.toConsensus.fetchSync height }
  have hfetch : m.pinged k = n.pinged k := pinged_congr rfl rfl
  by_cases hvote : turn.pingVote = true
  · rw [if_pos hvote] at hgoes ⊢
    have hpropose := m.pinged_proposeModifyStake (k := k) hrun origin STAKE_PING_IDENT
      STAKE_PING_AMOUNT hgoes
    have hcount : counts k origin STAKE_PING_IDENT ≤ j := by
      unfold counts
      split
      next h => exact hj hkind h.1 hvote
      · exact Nat.zero_le j
    omega
  · rw [if_neg hvote]
    omega

theorem processProposeBlock_server (b : BlockStruct) :
    (n.processProposeBlock crypto turn b).server = n.server := by
  unfold processProposeBlock
  split
  · refine (andThen_frame _ server ?_).trans (calcValidator_server _ turn)
    intro k
    exact (k.transmit _).andThen_frame server fun _ => rfl
  · rfl

/-- Of the five kinds of messages only a status can lead to a proposal. -/
theorem processMessage_server (msg : Message) (h : ∀ kind height, msg.data ≠ .status kind height) :
    (n.processMessage crypto turn msg).server = n.server := by
  unfold processMessage
  split
  · rw [andThen_frame _ server fun k => ?_, calcValidator_server]
    split
    · exact k.processAddTx_server _ _ _
    · rfl
  · rw [andThen_frame _ server fun k => ?_, calcValidator_server]
    split
    · exact processProposeBlock_server _
    · rfl
  · rw [andThen_frame _ server fun k => ?_, calcValidator_server]
    split <;> rfl
  · rw [andThen_frame _ server fun k => ?_, calcValidator_server]
    split <;> rfl
  next hdata => exact absurd hdata (h _ _)

theorem pingOf_status {msg : Message} {height : Nat} (hrun : n.halted = false)
    (hvalid : validateMessage msg = true) (hdata : msg.data = .status ONLINE height) :
    n.pingOf (.message msg) = some msg.origin := by
  unfold pingOf
  dsimp only
  rw [hdata]
  exact if_pos ⟨hrun, hvalid, rfl⟩

theorem pinged_message (hrun : n.halted = false) (msg : Message)
    (hgoes : (n.react crypto turn (.message msg)).halted = false) {j : Nat}
    (hj : n.pingOf (.message msg) = some k → turn.pingVote = true → 1 ≤ j) :
    (n.react crypto turn (.message msg)).pinged k ≤ n.pinged k + j := by
  unfold react at hgoes ⊢
  dsimp only at hgoes ⊢
  by_cases hvalid : validateMessage msg = true
  swap
  · rw [if_neg hvalid]
    exact Nat.le_add_right _ _
  rw [if_pos hvalid] at hgoes ⊢
  by_cases hstatus : ∃ kind height, msg.data = .status kind height
  · obtain ⟨kind, height, hdata⟩ := hstatus
    have hprocess : n.processMessage crypto turn msg
        = n.processStatus crypto turn msg.origin kind height := by
      unfold processMessage
      rw [hdata]
    rw [hprocess] at hgoes ⊢
    refine pinged_processStatus hrun msg.origin kind height hgoes ?_
    rintro rfl rfl hvote
    exact hj (pingOf_status hrun hvalid hdata) hvote
  · have hserver : (n.processMessage crypto turn msg).server = n.server :=
      n.processMessage_server msg fun kind height h => hstatus ⟨kind, height, h⟩
    rw [pinged_of_server hserver]
    exact Nat.le_add_right _ _

/-- **One turn adds one proposal for the pings of a peer**, if its status comes in
and the node votes for it. -/
theorem pinged_step (e : Event) (hask : e.asksPing k = false)
    (hgoes : (n.step crypto turn e).halted = false) {j : Nat}
    (hj : n.pingOf e = some k → turn.pingVote = true → 1 ≤ j) :
    (n.step crypto turn e).pinged k ≤ n.pinged k + j := by
  by_cases hhalted : n.halted = true
  · rw [step_of_halted crypto hhalted]
    exact Nat.le_add_right _ _
  have hrun : n.halted = false := Bool.eq_false_iff.mpr hhalted
  rw [step_of_running crypto hrun] at hgoes ⊢
  have hsame : ∀ m : Node, m.server = n.server → m.pinged k ≤ n.pinged k + j := by
    intro m hm
    rw [pinged_of_server hm]
    exact Nat.le_add_right _ _
  cases e with
  | stackTx commands ident =>
      have hstack : (n.stackTx crypto turn commands ident).pinged k
          ≤ n.pinged k + commands.countP (proposes k STAKE_PING_IDENT) :=
        n.pinged_stackTx commands ident
      rw [List.countP_eq_zero.mpr fun c hc => List.any_eq_false.mp hask c hc] at hstack
      exact le_trans hstack (Nat.le_add_right _ _)
  | message msg => exact pinged_message hrun msg hgoes hj
  | timeoutAddTx =>
      apply hsame
      unfold react
      dsimp only
      split
      · exact doAddTx_server _ _
      · rfl
  | timeoutProposeBlock =>
      apply hsame
      unfold react
      dsimp only
      split <;> rfl
  | timeoutRetry =>
      apply hsame
      unfold react
      dsimp only
      split
      · exact doAddTx_server _ _
      · rfl
  | resumeAdd i => exact le_trans (pinged_resumeAdd hrun i hgoes) (Nat.le_add_right _ _)
  | p2pNetwork =>
      apply hsame
      unfold react
      dsimp only
      split <;> rfl
  | timeoutStatus => exact hsame _ rfl
  | syncAnswer blocks => exact hsame _ rfl
  | continueSync => exact hsame _ rfl

end Node

namespace Monitor

open Node (Event AnyTurn pinged_step)

variable {crypto : Crypto} {m : Monitor} {chain : Blockchain} {k : Text}

/-- The API of the node itself is not asked for a stake proposal of this kind. -/
def NoPing (k : Text) (_ : Node) (_ : Turn) (e : Event) : Prop := e.asksPing k = false

theorem running_before {turn : Turn} {e : Event}
    (h : (m.toNode.step crypto turn e).halted = false) : m.halted = false := by
  cases hrun : m.halted with
  | false => rfl
  | true =>
      rw [Node.step_of_halted crypto hrun, hrun] at h
      exact nomatch h

/-- **Each proposal for the pings of a peer has its vote.** -/
theorem Reaches.pinged_le_votes (h : Reaches crypto (NoPing k) (start chain) m)
    (hrun : m.halted = false) : m.pinged k ≤ m.votes.count k := by
  induction h with
  | refl => exact Nat.zero_le _
  | @step m h turn e hok ih =>
    cases hping : m.pingOf e with
    | none =>
      rw [step_of_none hping] at hrun ⊢
      have hstep := pinged_step (j := 0) e hok hrun fun _ hvote => nomatch hvote
      exact le_trans hstep (ih (running_before hrun))
    | some origin =>
      rw [step_of_some hping] at hrun ⊢
      dsimp only at hrun ⊢
      generalize (recordStatus (m.noted origin) turn.now).2 = vote at hrun ⊢
      have hbefore := ih (running_before hrun)
      by_cases hcounts : vote = true ∧ origin = k
      · obtain ⟨rfl, rfl⟩ := hcounts
        have hstep := pinged_step (j := 1) e hok hrun fun _ _ => le_rfl
        rw [if_pos rfl, List.count_append, List.count_singleton_self]
        omega
      · have hstep := pinged_step (j := 0) e hok hrun fun hk hvote =>
          absurd ⟨hvote, Option.some_inj.mp (hping.symm.trans hk)⟩ hcounts
        refine le_trans hstep (le_trans hbefore ?_)
        split
        · rw [List.count_append]
          exact Nat.le_add_right _ _
        · exact le_rfl

/-- **A peer gets one proposal for eleven of its statuses at most**, and none for
its first 31, however they are timed and whatever else happens. -/
theorem pings_limited (h : Reaches crypto (NoPing k) (start chain) m) (hrun : m.halted = false) :
    m.pinged k ≤ ((m.times k).length - 21) / 11 :=
  le_trans (h.pinged_le_votes hrun) (h.sizes k).2

/-- The status of the second peer comes in once a second. -/
def everySecond (count : Nat) : List (Turn × Event) :=
  (List.range count).map fun i =>
    ({ Node.allOnline with now := 1000 * (i + 1) }, .message (Node.messageOf 1 (.status ONLINE 1)))

def afterSeconds (count : Nat) : Monitor :=
  (start (Blockchain.sampleStart 0)).run Blockchain.sampleCrypto (everySecond count)

/-- A run of statuses only asks the API for nothing. -/
theorem reaches_afterSeconds (count : Nat) :
    Reaches Blockchain.sampleCrypto (NoPing (keyOf 1)) (start (Blockchain.sampleStart 0))
      (afterSeconds count) := by
  refine reaches_run _ .refl fun x hx n => ?_
  obtain ⟨i, -, rfl⟩ := List.mem_map.mp hx
  rfl

theorem Reaches.any {ok : Node → Turn → Event → Prop} (h : Reaches crypto ok (start chain) m) :
    Reaches crypto AnyTurn (start chain) m := by
  induction h with
  | refl => exact .refl
  | step h turn e hok ih => exact ih.step turn e trivial

theorem pings_limited_of_sample :
    (afterSeconds 43).halted = false ∧ ((afterSeconds 43).times (keyOf 1)).length = 43
      ∧ (afterSeconds 43).pinged (keyOf 1)
          ≤ (((afterSeconds 43).times (keyOf 1)).length - 21) / 11 := by
  have hrun : (afterSeconds 43).halted = false := by decide +kernel
  exact ⟨hrun, by decide +kernel, pings_limited (reaches_afterSeconds 43) hrun⟩

/-- **A peer with steady pings is voted for as often as possible**, and what is
noted of it are its latest pings. -/
theorem steady_pings_vote {lo hi : Nat} (h : Reaches crypto AnyTurn (start chain) m)
    (hsteady : Steady lo hi (m.times k)) (hlo : 0 < lo) (hratio : 2 * hi ≤ 3 * lo) :
    m.votes.count k = ((m.times k).length - 21) / 11
      ∧ m.noted k = (m.times k).drop (11 * m.votes.count k) := by
  obtain ⟨hnoted, hvotes⟩ := h.noted k
  have hall : ∀ a ∈ pingSampler.samples (m.times k), wanted a = true := by
    refine pingSampler.judge_of_monotone hsteady.pairwise fun j hj => ?_
    refine (hsteady.window j STAKE_PING_SAMPLE_SIZE).wanted hlo hratio ?_
    rw [List.length_take, List.length_drop]
    exact Nat.min_eq_left (Nat.le_sub_of_add_le' hj)
  have hcount : m.votes.count k = (pingSampler.samples (m.times k)).length := by
    rw [hvotes]
    exact List.countP_eq_length.mpr hall
  refine ⟨hcount.trans (length_pingSamples _), ?_⟩
  rw [hnoted, pingSampler.history_of_monotone hsteady.pairwise, hcount]
  rfl

theorem steady_pings_vote_of_sample :
    Steady 1000 1000 ((afterSeconds 43).times (keyOf 1))
      ∧ (afterSeconds 43).votes.count (keyOf 1)
          = (((afterSeconds 43).times (keyOf 1)).length - 21) / 11
      ∧ (afterSeconds 43).noted (keyOf 1)
          = ((afterSeconds 43).times (keyOf 1)).drop
              (11 * (afterSeconds 43).votes.count (keyOf 1)) := by
  have hsteady : Steady 1000 1000 ((afterSeconds 43).times (keyOf 1)) := by decide +kernel
  exact ⟨hsteady,
    steady_pings_vote (reaches_afterSeconds 43).any hsteady (by decide) (by decide)⟩

end Monitor

end Divachain
