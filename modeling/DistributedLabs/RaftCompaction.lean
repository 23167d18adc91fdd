import DistributedLabs.RaftMerge

set_option autoImplicit false

/-!
# Compaction is invisible to the protocol

A peer and the same peer after `Snapshot(i, data)` are kept in a simulation: same
variables, and the log of the second is that of the first from `i` on, with the entry
at `i` reduced to its term. Every request that stays at or above `i` is answered alike.
-/
namespace DistributedLabs.RaftCompaction
open RaftModel RaftShape RaftHistory RaftBounds RaftMerge TermLedger

variable {n : ℕ} {C S : Type}

inductive Request (n : ℕ) (C : Type) where
  | requestVote (args : RequestVoteArgs n)
  | appendEntries (args : AppendEntriesArgs n C)

inductive Answer where
  | vote (reply : RequestVoteReply)
  | append (reply : AppendEntriesReply)

def serve (rf : Raft n C S) : Request n C → Option (Raft n C S × Answer)
  | .requestVote args => (rf.requestVote args).map fun (rf, reply) => (rf, .vote reply)
  | .appendEntries args => (rf.appendEntries args).map fun (rf, reply) => (rf, .append reply)

def Request.Above (i : ℕ) : Request n C → Prop
  | .requestVote _ => True
  | .appendEntries args => i ≤ args.prevLogIndex

def TermConflict (rf : Raft n C S) (args : AppendEntriesArgs n C) : Prop :=
  rf.currentTerm ≤ args.term ∧
    ∃ e, rf.entryAt args.prevLogIndex = some e ∧ e.term ≠ args.prevLogTerm

/-- The replies of `rf` and of its compacted double, which reports no index below `i`. -/
inductive SameAnswer (i : ℕ) (rf : Raft n C S) : Request n C → Answer → Answer → Prop where
  | vote (args : RequestVoteArgs n) (reply : RequestVoteReply) :
      SameAnswer i rf (.requestVote args) (.vote reply) (.vote reply)
  | append (args : AppendEntriesArgs n C) (r r' : AppendEntriesReply) (term : r'.term = r.term)
      (success : r'.success = r.success) (xTerm : r'.xTerm = r.xTerm) (xLen : r'.xLen = r.xLen)
      (conflict : TermConflict rf args → r'.xIndex = max r.xIndex i)
      (other : ¬ TermConflict rf args → r'.xIndex = r.xIndex) :
      SameAnswer i rf (.appendEntries args) (.append r) (.append r')

/-- What the two peers have in common above `i`, the requests of a leader included. -/
structure SameView (i : ℕ) (x y : Raft n C S) : Prop where
  currentTerm : y.currentTerm = x.currentTerm
  votedFor : y.votedFor = x.votedFor
  state : y.state = x.state
  commitIndex : y.commitIndex = x.commitIndex
  lastLogIndex : y.lastLogIndex = x.lastLogIndex
  entries : ∀ j, i < j → y.entryAt j = x.entryAt j
  nextIndex : y.nextIndex = x.nextIndex
  request : ∀ peer, i < x.nextIndex peer → ∃ args : Option (AppendEntriesArgs n C),
    x.replicateOnce peer = some (args.map .append) ∧ y.replicateOnce peer = some (args.map .append)

def Indistinguishable (i : ℕ) : List (Request n C) → Raft n C S → Raft n C S → Prop
  | [], x, y => SameView i x y
  | req :: reqs, x, y => SameView i x y ∧ ∃ x' a y' b, serve x req = some (x', a) ∧
      serve y req = some (y', b) ∧ SameAnswer i x req a b ∧ Indistinguishable i reqs x' y'

/-- The simulation: `y` is `x` compacted up to `i`. -/
structure Compacts (i : ℕ) (x y : Raft n C S) : Prop where
  me : y.me = x.me
  currentTerm : y.currentTerm = x.currentTerm
  votedFor : y.votedFor = x.votedFor
  state : y.state = x.state
  commitIndex : y.commitIndex = x.commitIndex
  nextIndex : y.nextIndex = x.nextIndex
  above : x.lastIncludedIndex < i
  base : y.lastIncludedIndex = i
  log : ∃ e, x.log[i - x.lastIncludedIndex]? = some e ∧
    y.log = ⟨e.term, none⟩ :: x.log.drop (i - x.lastIncludedIndex + 1)

variable {i : ℕ} {x y : Raft n C S}

section access

theorem Compacts.length_lt (h : Compacts i x y) : i - x.lastIncludedIndex < x.log.length := by
  obtain ⟨e, he, _⟩ := h.log
  exact (List.getElem?_eq_some_iff.mp he).choose

theorem Compacts.pos (h : Compacts i x y) : 0 < x.log.length := by
  have hlt := h.length_lt
  omega

theorem Compacts.length (h : Compacts i x y) :
    y.log.length = x.log.length - (i - x.lastIncludedIndex) := by
  have hlt := h.length_lt
  obtain ⟨e, _, hlog⟩ := h.log
  rw [hlog, List.length_cons, List.length_drop]
  omega

theorem Compacts.lastLogIndex (h : Compacts i x y) : y.lastLogIndex = x.lastLogIndex := by
  have hlt := h.length_lt
  have hlen := h.length
  have habove := h.above
  unfold Raft.lastLogIndex
  rw [h.base]
  omega

theorem Compacts.le_last (h : Compacts i x y) : i ≤ x.lastLogIndex := by
  have hlt := h.length_lt
  have habove := h.above
  unfold Raft.lastLogIndex
  omega

theorem Compacts.drop (h : Compacts i x y) {j : ℕ} (hj : i ≤ j) :
    y.log.drop (j - i + 1) = x.log.drop (j - x.lastIncludedIndex + 1) := by
  have habove := h.above
  obtain ⟨e, _, hlog⟩ := h.log
  rw [hlog, List.drop_succ_cons, List.drop_drop]
  congr 1
  omega

theorem Compacts.entryAt (h : Compacts i x y) {j : ℕ} (hj : i < j) :
    y.entryAt j = x.entryAt j := by
  have habove := h.above
  have hdrop := congrArg (fun l => l[j - i - 1]?) (h.drop (le_refl i))
  simp only [List.getElem?_drop] at hdrop
  rw [entryAt_eq (by rw [h.base]; omega), entryAt_eq (by omega), h.base]
  rw [show i - i + 1 + (j - i - 1) = j - i by omega,
    show i - x.lastIncludedIndex + 1 + (j - i - 1) = j - x.lastIncludedIndex by omega] at hdrop
  exact hdrop

/-- At the boundary only the term is left, and no check reads more. -/
theorem Compacts.entry_term (h : Compacts i x y) {j : ℕ} (hj : i ≤ j) (hl : j ≤ x.lastLogIndex) :
    ∃ e e', x.entryAt j = some e ∧ y.entryAt j = some e' ∧ e'.term = e.term := by
  have habove := h.above
  rcases hj.eq_or_lt with rfl | hlt
  · obtain ⟨e, he, hlog⟩ := h.log
    refine ⟨e, ⟨e.term, none⟩, ?_, ?_, rfl⟩
    · rw [entryAt_eq (by omega)]
      exact he
    · rw [entryAt_eq (by rw [h.base]), h.base, hlog, Nat.sub_self, List.getElem?_cons_zero]
  · obtain ⟨e, he⟩ := entryAt_some h.pos (i := j) (by omega) hl
    exact ⟨e, e, he, (h.entryAt hlt).trans he, rfl⟩

theorem firstOfTerm_le {t j k : ℕ} (h : x.firstOfTerm t j = some k) : k ≤ j := by
  induction j with
  | zero =>
    cases h
    exact le_refl _
  | succ j ih =>
    unfold Raft.firstOfTerm at h
    split_ifs at h
    · obtain ⟨e, _, h⟩ := Option.bind_eq_some_iff.mp h
      split_ifs at h
      · exact (ih h).trans (Nat.le_succ j)
      · cases h
        exact le_refl _
    · cases h
      exact le_refl _

/-- The search for the first entry of the term stops at the boundary. -/
theorem Compacts.firstOfTerm (h : Compacts i x y) {t j k : ℕ} (hj : i ≤ j)
    (hl : j ≤ x.lastLogIndex) (hk : x.firstOfTerm t j = some k) :
    y.firstOfTerm t j = some (max k i) := by
  have habove := h.above
  induction j with
  | zero => omega
  | succ j ih =>
    by_cases hb : i < j + 1
    · obtain ⟨e, e', he, he', ht⟩ := h.entry_term (j := j) (by omega) (by omega)
      unfold Raft.firstOfTerm at hk ⊢
      rw [if_pos (by omega), he] at hk
      rw [if_pos (by rw [h.base]; exact hb), he']
      simp only [Option.bind_eq_bind, Option.bind_some, ht] at hk ⊢
      split_ifs at hk ⊢
      · exact ih (by omega) (by omega) hk
      · cases hk
        congr 1
        omega
    · have hle := firstOfTerm_le hk
      unfold Raft.firstOfTerm
      rw [if_neg (by rw [h.base]; exact hb)]
      congr 1
      omega

end access

section steps

theorem Compacts.congr (h : Compacts i x y) {x' y' : Raft n C S} (hx : x'.log = x.log)
    (hy : y'.log = y.log) (hxb : x'.lastIncludedIndex = x.lastIncludedIndex)
    (hyb : y'.lastIncludedIndex = y.lastIncludedIndex) (me : y'.me = x'.me)
    (currentTerm : y'.currentTerm = x'.currentTerm) (votedFor : y'.votedFor = x'.votedFor)
    (state : y'.state = x'.state) (commitIndex : y'.commitIndex = x'.commitIndex)
    (nextIndex : y'.nextIndex = x'.nextIndex) : Compacts i x' y' where
  me := me
  currentTerm := currentTerm
  votedFor := votedFor
  state := state
  commitIndex := commitIndex
  nextIndex := nextIndex
  above := by
    rw [hxb]
    exact h.above
  base := hyb.trans h.base
  log := by
    rw [hx, hy, hxb]
    exact h.log

theorem Compacts.toFollower (h : Compacts i x y) (t : ℕ) :
    Compacts i (x.toFollower t) (y.toFollower t) :=
  h.congr rfl rfl rfl rfl h.me rfl rfl rfl h.commitIndex h.nextIndex

theorem Compacts.observeTerm (h : Compacts i x y) (t : ℕ) :
    Compacts i (x.observeTerm t) (y.observeTerm t) := by
  unfold Raft.observeTerm
  rw [h.currentTerm]
  split_ifs
  · exact h.toFollower t
  · exact h

theorem Compacts.follow (h : Compacts i x y) (t : ℕ) : Compacts i (x.follow t) (y.follow t) := by
  unfold Raft.follow
  rw [h.currentTerm]
  split_ifs
  · exact h.toFollower t
  · exact h.congr rfl rfl rfl rfl h.me rfl h.votedFor rfl h.commitIndex h.nextIndex

theorem Compacts.requestVote (h : Compacts i x y) (args : RequestVoteArgs n) :
    ∃ x' y' reply, x.requestVote args = some (x', reply) ∧ y.requestVote args = some (y', reply) ∧
      Compacts i x' y' := by
  have ho := h.observeTerm args.term
  unfold Raft.requestVote
  dsimp only
  generalize x.observeTerm args.term = a at ho ⊢
  generalize y.observeTerm args.term = b at ho ⊢
  obtain ⟨e, e', he, he', ht⟩ := ho.entry_term ho.le_last (le_refl _)
  rw [ho.currentTerm, ho.lastLogIndex, ho.votedFor, he, he']
  simp only [Option.bind_eq_bind, Option.bind_some, ht]
  split_ifs with hold hup hfree
  · exact ⟨a, b, _, rfl, rfl, ho⟩
  · exact ⟨_, _, _, rfl, rfl, ho.congr rfl rfl rfl rfl ho.me rfl rfl ho.state
      ho.commitIndex ho.nextIndex⟩
  · exact ⟨a, b, _, rfl, rfl, ho⟩
  · exact ⟨a, b, _, rfl, rfl, ho⟩

theorem Compacts.mergedLog (h : Compacts i x y) {args : AppendEntriesArgs n C}
    (hx : Fits x args) (hp : i ≤ args.prevLogIndex) :
    ∃ e, (mergedLog x args)[i - x.lastIncludedIndex]? = some e ∧
      RaftMerge.mergedLog y args =
        ⟨e.term, none⟩ :: (RaftMerge.mergedLog x args).drop (i - x.lastIncludedIndex + 1) := by
  have habove := h.above
  obtain ⟨e, he, hlog⟩ := h.log
  have hkept : i - x.lastIncludedIndex + 1 ≤ kept x args := by
    unfold kept
    omega
  have hky : kept y args = args.prevLogIndex - i + 1 := by rw [kept, h.base]
  refine ⟨e, (mergedLog_below hx (by omega)).trans he, ?_⟩
  have htake : y.log.take (kept y args) =
      ⟨e.term, none⟩ :: (x.log.take (kept x args)).drop (i - x.lastIncludedIndex + 1) := by
    rw [hky, hlog, List.take_succ_cons, List.drop_take]
    congr 2
    unfold kept
    omega
  have hdrop : y.log.drop (kept y args) = x.log.drop (kept x args) := by
    rw [hky, h.drop hp]
    rfl
  rw [RaftMerge.mergedLog, htake, hdrop, RaftMerge.mergedLog,
    List.drop_append_of_le_length (by rw [length_take_kept hx]; exact hkept), List.cons_append]

theorem Compacts.fits (h : Compacts i x y) {args : AppendEntriesArgs n C} (hx : Fits x args)
    (hp : i ≤ args.prevLogIndex) : Fits y args := by
  obtain ⟨e, e', he, he', ht⟩ := h.entry_term hp hx.high
  obtain ⟨e₀, he₀, ht₀⟩ := hx.prev
  rw [he] at he₀
  cases he₀
  constructor
  · rw [h.currentTerm]
    exact hx.term
  · rw [h.base]
    exact hp
  · rw [h.lastLogIndex]
    exact hx.high
  · exact ⟨e', he', ht.trans ht₀⟩

section merged
variable (x : Raft n C S) (args : AppendEntriesArgs n C)

theorem merged_me : (merged x args).me = (x.follow args.term).me := by
  unfold merged
  split_ifs <;> rfl

theorem merged_state : (merged x args).state = (x.follow args.term).state := by
  unfold merged
  split_ifs <;> rfl

theorem merged_next : (merged x args).nextIndex = (x.follow args.term).nextIndex := by
  unfold merged
  split_ifs <;> rfl

end merged

theorem Compacts.merged (h : Compacts i x y) {args : AppendEntriesArgs n C} (hx : Fits x args)
    (hp : i ≤ args.prevLogIndex) : Compacts i (merged x args) (RaftMerge.merged y args) := by
  have hf := h.follow args.term
  constructor
  · rw [merged_me, merged_me, hf.me]
  · rw [merged_term, merged_term, hf.currentTerm]
  · rw [merged_vote, merged_vote, hf.votedFor]
  · rw [merged_state, merged_state, hf.state]
  · rw [merged_commit, merged_commit, h.commitIndex]
  · rw [merged_next, merged_next, hf.nextIndex]
  · rw [merged_base]
    exact h.above
  · rw [merged_base, h.base]
  · rw [merged_log, merged_log, merged_base]
    exact h.mergedLog hx hp

theorem Compacts.followCommit (h : Compacts i x y) (leaderCommit : ℕ) :
    Compacts i (x.followCommit leaderCommit) (y.followCommit leaderCommit) := by
  unfold Raft.followCommit
  rw [h.commitIndex, h.lastLogIndex]
  split_ifs
  · exact h.congr rfl rfl rfl rfl h.me h.currentTerm h.votedFor h.state rfl h.nextIndex
  · exact h.congr rfl rfl rfl rfl h.me h.currentTerm h.votedFor h.state rfl h.nextIndex
  · exact h

theorem Compacts.refuses (h : Compacts i x y) {args : AppendEntriesArgs n C}
    (hp : i ≤ args.prevLogIndex) (hx : ¬ Fits x args) :
    ∃ x' y' r r', x.appendEntries args = some (x', r) ∧ y.appendEntries args = some (y', r') ∧
      SameAnswer i x (.appendEntries args) (.append r) (.append r') ∧ Compacts i x' y' := by
  have habove := h.above
  have hf := h.follow args.term
  unfold Raft.appendEntries
  dsimp only
  rw [h.currentTerm, hf.currentTerm, hf.base, hf.lastLogIndex, follow_base, follow_lastLogIndex]
  by_cases hold : args.term < x.currentTerm
  · have hnone : ¬ TermConflict x args := fun hc => absurd hc.1 (not_le.mpr hold)
    rw [if_pos hold, if_pos hold]
    exact ⟨x, y, _, _, rfl, rfl,
      .append args _ _ rfl rfl rfl rfl (fun hc => absurd hc hnone) (fun _ => rfl), h⟩
  rw [if_neg hold, if_neg hold, if_neg (not_lt.mpr hp),
    if_neg (show ¬ args.prevLogIndex < x.lastIncludedIndex by omega)]
  by_cases hshort : x.lastLogIndex < args.prevLogIndex
  · have hnone : ¬ TermConflict x args := by
      rintro ⟨_, e, he, _⟩
      have hle := (entryAt_bounds he).2
      omega
    rw [if_pos hshort, if_pos hshort]
    exact ⟨_, _, _, _, rfl, rfl,
      .append args _ _ rfl rfl rfl rfl (fun hc => absurd hc hnone) (fun _ => rfl), hf⟩
  rw [if_neg hshort, if_neg hshort]
  obtain ⟨e, e', he, he', ht⟩ := h.entry_term hp (not_lt.mp hshort)
  have hne : e.term ≠ args.prevLogTerm :=
    fun heq => hx ⟨not_lt.mp hold, by omega, by omega, e, he, heq⟩
  obtain ⟨k, hk⟩ := Option.isSome_iff_exists.mp (firstOfTerm_some hf.pos e.term args.prevLogIndex
    (by rw [follow_lastLogIndex]; omega))
  have hk' := hf.firstOfTerm hp (by rw [follow_lastLogIndex]; omega) hk
  rw [follow_entryAt, follow_entryAt, he, he']
  simp only [Option.bind_eq_bind, Option.bind_some, ht, hne, ne_eq, not_false_eq_true, ↓reduceIte,
    hk, hk']
  exact ⟨_, _, _, _, rfl, rfl, .append args _ _ rfl rfl rfl rfl (fun _ => rfl)
    (fun hc => absurd ⟨not_lt.mp hold, e, he, hne⟩ hc), hf⟩

theorem Compacts.appendEntries (h : Compacts i x y) {args : AppendEntriesArgs n C}
    (hp : i ≤ args.prevLogIndex) :
    ∃ x' y' r r', x.appendEntries args = some (x', r) ∧ y.appendEntries args = some (y', r') ∧
      SameAnswer i x (.appendEntries args) (.append r) (.append r') ∧ Compacts i x' y' := by
  by_cases hx : Fits x args
  · have hnone : ¬ TermConflict x args := by
      rintro ⟨_, e, he, hne⟩
      obtain ⟨e₀, he₀, ht⟩ := hx.prev
      rw [he] at he₀
      cases he₀
      exact hne ht
    exact ⟨_, _, _, _, appendEntries_fits hx, appendEntries_fits (h.fits hx hp),
      .append args _ _ rfl rfl rfl rfl (fun hc => absurd hc hnone) (fun _ => rfl),
      (h.merged hx hp).followCommit args.leaderCommit⟩
  · exact h.refuses hp hx

theorem Compacts.serve (h : Compacts i x y) {req : Request n C} (hr : req.Above i) :
    ∃ x' a y' b, serve x req = some (x', a) ∧ RaftCompaction.serve y req = some (y', b) ∧
      SameAnswer i x req a b ∧ Compacts i x' y' := by
  cases req with
  | requestVote args =>
    obtain ⟨x', y', reply, hx, hy, hc⟩ := h.requestVote args
    exact ⟨x', .vote reply, y', .vote reply, by simp [RaftCompaction.serve, hx],
      by simp [RaftCompaction.serve, hy], .vote args reply, hc⟩
  | appendEntries args =>
    obtain ⟨x', y', r, r', hx, hy, ha, hc⟩ := h.appendEntries hr
    exact ⟨x', .append r, y', .append r', by simp [RaftCompaction.serve, hx],
      by simp [RaftCompaction.serve, hy], ha, hc⟩

end steps

section views

theorem Compacts.entriesAfter (h : Compacts i x y) {prev : ℕ} (hp : i ≤ prev) :
    y.entriesAfter prev = x.entriesAfter prev := by
  have habove := h.above
  have hlx := lastLogIndex_eq h.pos
  unfold Raft.entriesAfter
  rw [h.lastLogIndex]
  split_ifs with hlt
  · have hdrop := h.drop hp
    have hlen := h.length
    have hll := h.length_lt
    simp only [Raft.offset, h.base, show i ≤ prev + 1 by omega,
      show x.lastIncludedIndex ≤ prev + 1 by omega, ↓reduceIte, Option.bind_eq_bind,
      Option.bind_some, sliceFrom]
    rw [if_pos (by omega), if_pos (by omega), show prev + 1 - i = prev - i + 1 by omega,
      show prev + 1 - x.lastIncludedIndex = prev - x.lastIncludedIndex + 1 by omega, hdrop]
  · rfl

/-- As long as the peer is not behind `i`, a leader sends it the same request. -/
theorem Compacts.replicateOnce (h : Compacts i x y) {peer : Fin n} (hn : i < x.nextIndex peer) :
    ∃ args : Option (AppendEntriesArgs n C), x.replicateOnce peer = some (args.map .append) ∧
      y.replicateOnce peer = some (args.map .append) := by
  have habove := h.above
  unfold Raft.replicateOnce
  dsimp only
  rw [h.state, h.nextIndex, h.base, h.lastLogIndex]
  by_cases hs : x.state = .leader
  · rw [if_neg (not_not.mpr hs), if_neg (not_not.mpr hs), if_neg (not_le.mpr hn),
      if_neg (not_le.mpr (habove.trans hn))]
    by_cases hahead : x.lastLogIndex < x.nextIndex peer - 1
    · rw [if_pos hahead, if_pos hahead]
      exact ⟨none, rfl, rfl⟩
    rw [if_neg hahead, if_neg hahead]
    obtain ⟨e, e', he, he', ht⟩ := h.entry_term (j := x.nextIndex peer - 1) (by omega) (by omega)
    have hprev : x.lastIncludedIndex ≤ x.nextIndex peer - 1 := by omega
    obtain ⟨es, hes⟩ := Option.isSome_iff_exists.mp (entriesAfter_some h.pos hprev)
    rw [h.entriesAfter (by omega), hes, he, he', h.currentTerm, h.me, h.commitIndex]
    simp only [Option.bind_eq_bind, Option.bind_some, ht]
    exact ⟨some _, rfl, rfl⟩
  · rw [if_pos hs, if_pos hs]
    exact ⟨none, rfl, rfl⟩

theorem Compacts.sameView (h : Compacts i x y) : SameView i x y where
  currentTerm := h.currentTerm
  votedFor := h.votedFor
  state := h.state
  commitIndex := h.commitIndex
  lastLogIndex := h.lastLogIndex
  entries _ hj := h.entryAt hj
  nextIndex := h.nextIndex
  request _ hn := h.replicateOnce hn

theorem Compacts.indistinguishable (h : Compacts i x y) (reqs : List (Request n C))
    (hr : ∀ req ∈ reqs, req.Above i) : Indistinguishable i reqs x y := by
  induction reqs generalizing x y with
  | nil => exact h.sameView
  | cons req reqs ih =>
    obtain ⟨x', a, y', b, hx, hy, ha, hc⟩ := h.serve (hr req List.mem_cons_self)
    exact ⟨h.sameView, x', a, y', b, hx, hy, ha,
      ih hc (fun q hq => hr q (List.mem_cons_of_mem _ hq))⟩

end views

theorem takeSnapshot_compacts {rf : Raft n C S} (hlo : rf.lastIncludedIndex < i)
    (hhi : i ≤ rf.lastApplied) (hb : rf.lastApplied ≤ rf.lastLogIndex) (hpos : 0 < rf.log.length)
    (data : S) : ∃ rf', rf.takeSnapshot i data = some rf' ∧ Compacts i rf rf' := by
  have hlast := lastLogIndex_eq hpos
  have hlt : i - rf.lastIncludedIndex < rf.log.length := by omega
  have hget := List.getElem?_eq_getElem hlt
  obtain ⟨e, he⟩ : ∃ e, e = rf.log[i - rf.lastIncludedIndex] := ⟨_, rfl⟩
  have hentry : rf.entryAt i = some e := by
    rw [entryAt_eq hlo.le, hget, he]
  have hcompact : rf.compacted i =
      some (⟨e.term, none⟩ :: rf.log.drop (i - rf.lastIncludedIndex + 1)) := by
    have hslice : rf.compacted i = clearHead (rf.log.drop (i - rf.lastIncludedIndex)) := by
      simp [Raft.compacted, Raft.offset, hlo.le, sliceFrom, hlt.le]
    rw [hslice, List.drop_eq_getElem_cons hlt, ← he]
    rfl
  unfold Raft.takeSnapshot
  rw [if_neg (by omega), hentry, hcompact]
  refine ⟨_, rfl, ?_⟩
  exact ⟨rfl, rfl, rfl, rfl, rfl, rfl, hlo, rfl, e, hget.trans (congrArg some he.symm), rfl⟩

/-- Of the state it is only asked that the log has its boundary entry and reaches what has been
applied. -/
theorem compaction_invisible (rf : Raft n C S) (hlog : rf.log ≠ [])
    (hb : rf.lastApplied ≤ rf.lastLogIndex) (hlo : rf.lastIncludedIndex < i)
    (hhi : i ≤ rf.lastApplied) (data : S) : ∃ rf', rf.takeSnapshot i data = some rf' ∧
      ∀ reqs : List (Request n C), (∀ req ∈ reqs, req.Above i) →
        Indistinguishable i reqs rf rf' := by
  obtain ⟨rf', hs, hc⟩ :=
    takeSnapshot_compacts hlo hhi hb (List.length_pos_of_ne_nil hlog) data
  exact ⟨rf', hs, fun reqs hr => hc.indistinguishable reqs hr⟩

/-- A refused request after which the two peers report different indices, 1 and 2. -/
theorem compaction_invisible_conflict :
    let rf : Raft 3 ℕ ℕ := { holding 0 [⟨1, some 1⟩, ⟨1, some 2⟩, ⟨1, some 3⟩] with lastApplied := 2 }
    let args : AppendEntriesArgs 3 ℕ := ⟨3, 1, 3, 2, [⟨3, some 9⟩], 0⟩
    (rf.appendEntries args).map (fun r => r.2.xIndex) = some 1 ∧
    ((rf.takeSnapshot 2 30).bind (fun rf' => rf'.appendEntries args)).map (fun r => r.2.xIndex) =
      some 2 ∧
    ∃ rf', rf.takeSnapshot 2 30 = some rf' ∧
      Indistinguishable 2 [.appendEntries args, .requestVote ⟨4, 2, 3, 1⟩] rf rf' := by
  intro rf args
  refine ⟨by decide, by decide, ?_⟩
  obtain ⟨rf', hs, hall⟩ := compaction_invisible rf (i := 2) (by decide) (by decide) (by decide)
    (by decide) 30
  refine ⟨rf', hs, hall _ ?_⟩
  intro req hreq
  simp only [List.mem_cons, List.not_mem_nil, or_false] at hreq
  rcases hreq with rfl | rfl
  · change 2 ≤ 3
    decide
  · trivial

end DistributedLabs.RaftCompaction
