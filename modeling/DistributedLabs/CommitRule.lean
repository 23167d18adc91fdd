import Mathlib.Algebra.Ring.Parity
import Mathlib.Data.Fin.VecNotation
import DistributedLabs.Majority
import DistributedLabs.RaftBounds

set_option autoImplicit false

/-!
# The index `advanceCommitIndex` commits

The leader sorts `matchIndex` and takes position `n / 2`. That is the largest index
held by at least half of the peers. For an odd number of peers half is more than
half; for an even number the rule asks for one peer less than a majority.
-/
namespace DistributedLabs.CommitRule
open RaftModel Majority

variable {n : ℕ} {C S : Type}

def HalfIndex (matchIndex : Fin n → ℕ) (N : ℕ) : Prop :=
  IsGreatest {N | n ≤ 2 * holders matchIndex N} N

def MajorityIndex (matchIndex : Fin n → ℕ) (N : ℕ) : Prop :=
  IsGreatest {N | n < 2 * holders matchIndex N} N

def Committable (rf : Raft n C S) (N : ℕ) : Prop :=
  rf.commitIndex < N ∧ N ≤ rf.lastLogIndex ∧ ∃ e, rf.entryAt N = some e ∧ e.term = rf.currentTerm

def Raises (rf : Raft n C S) (N : ℕ) : Prop :=
  rf.commitIndex < N ∧ ∃ rf', rf.advanceCommitIndex = some rf' ∧ rf'.commitIndex = N

/-- Only the index of a strict majority is committed, and it is whenever it may be. -/
structure CommitsMajority (rf : Raft n C S) : Prop where
  raised : ∀ N, Raises rf N → MajorityIndex rf.matchIndex N
  reached : ∀ N, Committable rf N → MajorityIndex rf.matchIndex N → Raises rf N

theorem sorted_iff_halfIndex (f : Fin n → ℕ) (hn : 0 < n) (N : ℕ) :
    ((List.ofFn f).insertionSort (· ≤ ·))[n / 2]? = some N ↔ HalfIndex f N := by
  have hlen : n / 2 < ((List.ofFn f).insertionSort (· ≤ ·)).length := by
    rw [List.length_insertionSort, List.length_ofFn]
    omega
  have hget := List.getElem?_eq_getElem hlen
  have hrank : ∀ M, M ≤ ((List.ofFn f).insertionSort (· ≤ ·))[n / 2] ↔ n ≤ 2 * holders f M := by
    intro M
    rw [le_sorted_iff f (n / 2) _ M hget]
    omega
  rw [hget, Option.some.injEq]
  constructor
  · rintro rfl
    exact ⟨(hrank _).mp (le_refl _), fun M hM => (hrank M).mpr hM⟩
  · intro h
    exact le_antisymm (h.2 ((hrank _).mp (le_refl _))) ((hrank N).mpr h.1)

/-- What the rule of the source commits, for every number of peers. -/
theorem raises_iff (rf : Raft n C S) (hl : rf.state = .leader) (N : ℕ) :
    Raises rf N ↔ Committable rf N ∧ HalfIndex rf.matchIndex N := by
  rw [← sorted_iff_halfIndex rf.matchIndex (Fin.pos rf.me)]
  unfold Raises Committable Raft.advanceCommitIndex
  constructor
  · rintro ⟨hlt, rf', h, rfl⟩
    rw [if_neg (not_not.mpr hl)] at h
    obtain ⟨K, hK, h⟩ := Option.bind_eq_some_iff.mp h
    split_ifs at h with hlog
    · obtain ⟨e, he, h⟩ := Option.bind_eq_some_iff.mp h
      split_ifs at h with hterm
      · cases h
        exact ⟨⟨hlt, hlog.2, e, he, hterm⟩, hK⟩
      · cases h
        omega
    · cases h
      omega
  · rintro ⟨⟨hlt, hle, e, he, hterm⟩, hK⟩
    simp [hl, hK, hlt, hle, he, hterm]

theorem halfIndex_iff_majorityIndex (hn : Odd n) (f : Fin n → ℕ) (N : ℕ) :
    HalfIndex f N ↔ MajorityIndex f N := by
  have hset : {N | n ≤ 2 * holders f N} = {N | n < 2 * holders f N} := by
    ext M
    obtain ⟨k, rfl⟩ := hn
    simp only [Set.mem_ofPred_eq]
    omega
  rw [HalfIndex, MajorityIndex, hset]

theorem commit_rule_iff (rf : Raft n C S) (hl : rf.state = .leader) :
    CommitsMajority rf ↔
      Odd n ∨ ∀ N, Committable rf N → (HalfIndex rf.matchIndex N ↔ MajorityIndex rf.matchIndex N) := by
  constructor
  · intro h
    right
    intro N hN
    constructor
    · intro hhalf
      exact h.raised N ((raises_iff rf hl N).mpr ⟨hN, hhalf⟩)
    · intro hmaj
      exact ((raises_iff rf hl N).mp (h.reached N hN hmaj)).2
  · intro h
    have hsame : ∀ N, Committable rf N →
        (HalfIndex rf.matchIndex N ↔ MajorityIndex rf.matchIndex N) := by
      rcases h with hodd | hsame
      · exact fun N _ => halfIndex_iff_majorityIndex hodd rf.matchIndex N
      · exact hsame
    constructor
    · intro N hN
      obtain ⟨hc, hhalf⟩ := (raises_iff rf hl N).mp hN
      exact (hsame N hc).mp hhalf
    · intro N hc hmaj
      exact (raises_iff rf hl N).mpr ⟨hc, (hsame N hc).mpr hmaj⟩

def leading (me : Fin n) (matchIndex : Fin n → ℕ) : Raft n ℕ ℕ :=
  { Raft.make me ⟨none, none⟩ with
    currentTerm := 1
    state := .leader
    log := [⟨0, none⟩, ⟨1, some 7⟩]
    matchIndex := matchIndex }

theorem commit_rule_three : CommitsMajority (leading (0 : Fin 3) ![1, 0, 1]) ∧
    ((leading (0 : Fin 3) ![1, 0, 1]).advanceCommitIndex.map (·.commitIndex)) = some 1 :=
  ⟨(commit_rule_iff _ rfl).mpr (.inl (by decide)), by decide⟩

/-- With four peers two acknowledgements commit. -/
theorem half_commits : Raises (leading (0 : Fin 4) ![1, 1, 0, 0]) 1 ∧
    holders ![1, 1, 0, 0] 1 = 2 ∧ ¬ CommitsMajority (leading (0 : Fin 4) ![1, 1, 0, 0]) := by
  have hraises : Raises (leading (0 : Fin 4) ![1, 1, 0, 0]) 1 :=
    ⟨by decide, _, rfl, by decide⟩
  refine ⟨hraises, by decide, fun h => ?_⟩
  have hheld := (h.raised 1 hraises).1
  revert hheld
  decide

end DistributedLabs.CommitRule
