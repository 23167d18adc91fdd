import Mathlib.Order.Bounds.Defs
import DistributedLabs.RaftBounds

set_option autoImplicit false

/-!
# What `AppendEntries` does to the log

The handler walks over the entries of the request at moving absolute indices. It
skips an entry whose term is already there, appends one behind the end, and at the
first different term cuts the log and takes the rest of the request. Here the result
is said without the loop, for any request and any log.
-/
namespace DistributedLabs.RaftMerge
open RaftModel RaftShape RaftHistory RaftBounds TermLedger

variable {n : ℕ} {C S : Type} {rf : Raft n C S} {args : AppendEntriesArgs n C}

structure Fits (rf : Raft n C S) (args : AppendEntriesArgs n C) : Prop where
  term : rf.currentTerm ≤ args.term
  low : rf.lastIncludedIndex ≤ args.prevLogIndex
  high : args.prevLogIndex ≤ rf.lastLogIndex
  prev : ∃ e, rf.entryAt args.prevLogIndex = some e ∧ e.term = args.prevLogTerm

def Conflict (rf : Raft n C S) (args : AppendEntriesArgs n C) (d : ℕ) : Prop :=
  args.prevLogIndex < d ∧ ∃ x e, rf.entryAt d = some x ∧
    args.entries[d - (args.prevLogIndex + 1)]? = some e ∧ x.term ≠ e.term

structure Merges (rf rf' : Raft n C S) (args : AppendEntriesArgs n C) : Prop where
  base : rf'.lastIncludedIndex = rf.lastIncludedIndex
  below : ∀ j, j ≤ args.prevLogIndex → rf'.entryAt j = rf.entryAt j
  replaced : ∀ d, IsLeast {d | Conflict rf args d} d →
    rf'.log = rf.log.take (d - rf.lastIncludedIndex) ++
      args.entries.drop (d - (args.prevLogIndex + 1))
  extended : (∀ d, ¬ Conflict rf args d) →
    rf'.log = rf.log ++ args.entries.drop (rf.lastLogIndex - args.prevLogIndex)

/-- The number of log entries up to the predecessor, the boundary included. -/
def kept (rf : Raft n C S) (args : AppendEntriesArgs n C) : ℕ :=
  args.prevLogIndex - rf.lastIncludedIndex + 1

def mergedLog (rf : Raft n C S) (args : AppendEntriesArgs n C) : List (LogEntry C) :=
  rf.log.take (kept rf args) ++ overlay LogEntry.term (rf.log.drop (kept rf args)) args.entries

theorem Fits.pos (h : Fits rf args) : 0 < rf.log.length := by
  obtain ⟨e, he, _⟩ := h.prev
  obtain ⟨k, _, hget⟩ := Option.bind_eq_some_iff.mp he
  have hlt := (List.getElem?_eq_some_iff.mp hget).choose
  omega

theorem Fits.kept_le (h : Fits rf args) : kept rf args ≤ rf.log.length := by
  have hlast := lastLogIndex_eq h.pos
  have hhigh := h.high
  have hlow := h.low
  unfold kept
  omega

section entries

theorem entryAt_eq {i : ℕ} (h : rf.lastIncludedIndex ≤ i) :
    rf.entryAt i = rf.log[i - rf.lastIncludedIndex]? := by
  simp [Raft.entryAt, Raft.offset, h]

theorem entryAt_below {i : ℕ} (h : i < rf.lastIncludedIndex) : rf.entryAt i = none := by
  simp [Raft.entryAt, Raft.offset, not_le.mpr h]

/-- Behind the predecessor, absolute indices are positions in the rest of the log. -/
theorem conflict_iff (h : Fits rf args) (k : ℕ) : Conflict rf args (args.prevLogIndex + 1 + k) ↔
    Differ LogEntry.term (rf.log.drop (kept rf args)) args.entries k := by
  have hlow := h.low
  have hpos : args.prevLogIndex + 1 + k - rf.lastIncludedIndex = kept rf args + k := by
    unfold kept
    omega
  unfold Conflict Differ
  rw [entryAt_eq (by omega), hpos, Nat.add_sub_cancel_left, List.getElem?_drop]
  constructor
  · rintro ⟨_, hd⟩
    exact hd
  · intro hd
    exact ⟨by omega, hd⟩

theorem Conflict.index {d : ℕ} (h : Conflict rf args d) :
    ∃ k, d = args.prevLogIndex + 1 + k := by
  have hlt := h.1
  exact ⟨d - (args.prevLogIndex + 1), by omega⟩

end entries

section handler

/-- The peer once the entries are merged, before `commitIndex` moves. -/
def merged (rf : Raft n C S) (args : AppendEntriesArgs n C) : Raft n C S :=
  let x := { rf.follow args.term with log := mergedLog rf args }
  if 0 < args.entries.length then x.persist else x

section merged
variable (rf : Raft n C S) (args : AppendEntriesArgs n C)

@[simp] theorem merged_log : (merged rf args).log = mergedLog rf args := by
  unfold merged
  split_ifs <;> rfl

@[simp] theorem merged_base : (merged rf args).lastIncludedIndex = rf.lastIncludedIndex := by
  unfold merged
  split_ifs <;> exact follow_base rf args.term

@[simp] theorem merged_commit : (merged rf args).commitIndex = rf.commitIndex := by
  unfold merged
  split_ifs <;> exact follow_commit rf args.term

@[simp] theorem merged_term : (merged rf args).currentTerm = (rf.follow args.term).currentTerm := by
  unfold merged
  split_ifs <;> rfl

@[simp] theorem merged_vote : (merged rf args).votedFor = (rf.follow args.term).votedFor := by
  unfold merged
  split_ifs <;> rfl

end merged

theorem mergeEntries_follow (h : Fits rf args) :
    (rf.follow args.term).mergeEntries args.prevLogIndex 0 args.entries =
      some { rf.follow args.term with log := mergedLog rf args } := by
  have hsame : mergedLog (rf.follow args.term) args = mergedLog rf args := by
    simp [mergedLog, kept]
  rw [← hsame]
  apply mergeEntries_eq
  · rw [follow_base]
    exact h.low
  · rw [follow_base, follow_log]
    exact h.kept_le

theorem appendEntries_fits (h : Fits rf args) : rf.appendEntries args =
    some ((merged rf args).followCommit args.leaderCommit, ⟨args.term, true, 0, 0, 0⟩) := by
  obtain ⟨e, he, ht⟩ := h.prev
  have hcur : (merged rf args).currentTerm = args.term := by
    rw [merged_term, follow_term h.term]
  unfold Raft.appendEntries
  dsimp only
  rw [if_neg (not_lt.mpr h.term), follow_base, follow_lastLogIndex, follow_entryAt,
    if_neg (not_lt.mpr h.low), if_neg (not_lt.mpr h.high), he]
  simp only [Option.bind_eq_bind, Option.bind_some, ht, ne_eq, not_true_eq_false, ↓reduceIte,
    mergeEntries_follow h]
  have hreply : (⟨args.term, true, 0, 0, 0⟩ : AppendEntriesReply) =
      ⟨(merged rf args).currentTerm, true, 0, 0, 0⟩ := by rw [hcur]
  rw [hreply]
  rfl

@[simp] theorem followCommit_vote (rf : Raft n C S) (leaderCommit : ℕ) :
    (rf.followCommit leaderCommit).votedFor = rf.votedFor := by
  rw [followCommit_eq]

@[simp] theorem followCommit_last (rf : Raft n C S) (leaderCommit : ℕ) :
    (rf.followCommit leaderCommit).lastLogIndex = rf.lastLogIndex := by
  simp [Raft.lastLogIndex]

theorem followCommit_commit (rf : Raft n C S) (leaderCommit : ℕ) :
    (rf.followCommit leaderCommit).commitIndex =
      if rf.commitIndex < leaderCommit then min leaderCommit rf.lastLogIndex
      else rf.commitIndex := by
  rw [followCommit_eq]

theorem followCommit_again (rf : Raft n C S) (leaderCommit : ℕ) :
    ((rf.followCommit leaderCommit).followCommit leaderCommit).commitIndex =
      (rf.followCommit leaderCommit).commitIndex := by
  rw [followCommit_commit (rf.followCommit leaderCommit), followCommit_last, followCommit_commit]
  split_ifs <;> omega

end handler

section results

theorem mergedLog_replaced (h : Fits rf args) {d : ℕ} (hd : IsLeast {d | Conflict rf args d} d) :
    mergedLog rf args = rf.log.take (d - rf.lastIncludedIndex) ++
      args.entries.drop (d - (args.prevLogIndex + 1)) := by
  obtain ⟨k, rfl⟩ := Conflict.index hd.1
  have hlow := h.low
  have hfirst : ∀ j, j < k →
      ¬ Differ LogEntry.term (rf.log.drop (kept rf args)) args.entries j := by
    intro j hj hdiff
    have hle := hd.2 ((conflict_iff h j).mpr hdiff)
    omega
  have hpos : args.prevLogIndex + 1 + k - rf.lastIncludedIndex = kept rf args + k := by
    unfold kept
    omega
  rw [mergedLog, overlay_of_differ _ _ k ((conflict_iff h k).mp hd.1) hfirst, hpos,
    Nat.add_sub_cancel_left, List.take_add, List.append_assoc]

theorem mergedLog_extended (h : Fits rf args) (hd : ∀ d, ¬ Conflict rf args d) :
    mergedLog rf args = rf.log ++ args.entries.drop (rf.lastLogIndex - args.prevLogIndex) := by
  have hagree : ∀ k, ¬ Differ LogEntry.term (rf.log.drop (kept rf args)) args.entries k :=
    fun k hk => hd _ ((conflict_iff h k).mpr hk)
  have hlen : (rf.log.drop (kept rf args)).length = rf.lastLogIndex - args.prevLogIndex := by
    have hlast := lastLogIndex_eq h.pos
    have hlow := h.low
    rw [List.length_drop, kept]
    omega
  rw [mergedLog, overlay_of_agree _ _ hagree, hlen, ← List.append_assoc, List.take_append_drop]

theorem length_take_kept (h : Fits rf args) : (rf.log.take (kept rf args)).length = kept rf args := by
  rw [List.length_take, Nat.min_eq_left h.kept_le]

theorem mergedLog_below (h : Fits rf args) {k : ℕ} (hk : k < kept rf args) :
    (mergedLog rf args)[k]? = rf.log[k]? := by
  rw [mergedLog, List.getElem?_append_left (by rw [length_take_kept h]; exact hk),
    List.getElem?_take_of_lt hk]

theorem entryAt_accepted (h : Fits rf args) {j : ℕ} (hj : j ≤ args.prevLogIndex) :
    ((merged rf args).followCommit args.leaderCommit).entryAt j = rf.entryAt j := by
  by_cases hlow : rf.lastIncludedIndex ≤ j
  · have hk : j - rf.lastIncludedIndex < kept rf args := by
      unfold kept
      omega
    rw [entryAt_eq (by simpa using hlow), entryAt_eq hlow]
    simpa using mergedLog_below h hk
  · rw [entryAt_below (by simpa using hlow), entryAt_below (not_le.mp hlow)]

theorem merges_of_fits (h : Fits rf args) :
    Merges rf ((merged rf args).followCommit args.leaderCommit) args where
  base := by simp
  below _ hj := entryAt_accepted h hj
  replaced d hd := by
    rw [followCommit_log, merged_log]
    exact mergedLog_replaced h hd
  extended hd := by
    rw [followCommit_log, merged_log]
    exact mergedLog_extended h hd

/-- The repeated request fits what the first one left. -/
theorem Fits.accepted (h : Fits rf args) :
    Fits ((merged rf args).followCommit args.leaderCommit) args where
  term := by
    rw [followCommit_term, merged_term, follow_term h.term]
  low := by simpa using h.low
  high := by
    have hlen := length_take_kept h
    have hlow := h.low
    rw [followCommit_last, Raft.lastLogIndex, merged_log, merged_base, mergedLog,
      List.length_append, hlen, kept]
    omega
  prev := by
    rw [entryAt_accepted h (le_refl _)]
    exact h.prev

theorem mergedLog_again (h : Fits rf args) :
    mergedLog ((merged rf args).followCommit args.leaderCommit) args = mergedLog rf args := by
  have hkept : kept ((merged rf args).followCommit args.leaderCommit) args = kept rf args := by
    simp [kept]
  have hlen := length_take_kept h
  rw [mergedLog, followCommit_log, merged_log, hkept, mergedLog, List.take_left' hlen,
    List.drop_left' hlen, overlay_overlay]

structure SameOutcome (x y : Raft n C S) : Prop where
  log : x.log = y.log
  commitIndex : x.commitIndex = y.commitIndex
  currentTerm : x.currentTerm = y.currentTerm
  votedFor : x.votedFor = y.votedFor

theorem accepted_again (h : Fits rf args) :
    SameOutcome ((merged ((merged rf args).followCommit args.leaderCommit) args).followCommit
      args.leaderCommit) ((merged rf args).followCommit args.leaderCommit) := by
  obtain ⟨x, hx⟩ : ∃ x, x = (merged rf args).followCommit args.leaderCommit := ⟨_, rfl⟩
  have hterm : x.currentTerm = args.term := by
    rw [hx, followCommit_term, merged_term, follow_term h.term]
  have hlog : mergedLog x args = x.log := by
    rw [hx, mergedLog_again h, followCommit_log, merged_log]
  have hfollow := follow_of_term hterm
  rw [← hx]
  constructor
  · rw [followCommit_log, merged_log, hlog]
  · have hlast : (merged x args).lastLogIndex = x.lastLogIndex := by
      rw [Raft.lastLogIndex, merged_log, merged_base, hlog, Raft.lastLogIndex]
    have hsettled : (x.followCommit args.leaderCommit).commitIndex = x.commitIndex := by
      rw [hx]
      exact followCommit_again (merged rf args) args.leaderCommit
    rw [followCommit_commit, merged_commit, hlast, ← followCommit_commit, hsettled]
  · rw [followCommit_term, merged_term, hfollow]
  · rw [followCommit_vote, merged_vote, hfollow]

/-- Only a request that fits is accepted. -/
theorem fits_of_success {rf' : Raft n C S} {reply : AppendEntriesReply}
    (h : rf.appendEntries args = some (rf', reply)) (hs : reply.success = true) :
    Fits rf args := by
  rcases appendEntries_cases h with ⟨_, _, hf⟩ | ⟨_, _, hf⟩ | ⟨hterm, _, e, _, he, ht, _, _⟩
  · rw [hf] at hs
    cases hs
  · rw [hf] at hs
    cases hs
  · rw [follow_entryAt] at he
    obtain ⟨hlow, hhigh⟩ := entryAt_bounds he
    exact ⟨hterm, hlow, hhigh, e, he, ht⟩

theorem rejected_unchanged {rf' : Raft n C S} {reply : AppendEntriesReply}
    (h : rf.appendEntries args = some (rf', reply)) (hs : reply.success = false) :
    rf'.log = rf.log ∧ rf'.commitIndex = rf.commitIndex := by
  rcases appendEntries_cases h with ⟨_, rfl, _⟩ | ⟨_, rfl, _⟩ | ⟨_, hsucc, _⟩
  · exact ⟨rfl, rfl⟩
  · exact ⟨follow_log rf _, follow_commit rf _⟩
  · rw [hs] at hsucc
    cases hsucc

theorem merge_exact (rf : Raft n C S) (args : AppendEntriesArgs n C) (hlog : rf.log ≠ []) :
    (Fits rf args → ∃ rf' reply, rf.appendEntries args = some (rf', reply) ∧
      reply.success = true ∧ Merges rf rf' args ∧
      ∃ rf'' reply', rf'.appendEntries args = some (rf'', reply') ∧ SameOutcome rf'' rf') ∧
    (¬ Fits rf args → ∃ rf' reply, rf.appendEntries args = some (rf', reply) ∧
      reply.success = false ∧ rf'.log = rf.log ∧ rf'.commitIndex = rf.commitIndex) := by
  constructor
  · intro h
    exact ⟨_, _, appendEntries_fits h, rfl, merges_of_fits h, _, _,
      appendEntries_fits h.accepted, accepted_again h⟩
  · intro h
    obtain ⟨⟨rf', reply⟩, hr⟩ := Option.isSome_iff_exists.mp
      (appendEntries_some (List.length_pos_of_ne_nil hlog) args)
    have hs : reply.success = false := by
      rw [← Bool.not_eq_true]
      exact fun hs => h (fits_of_success hr hs)
    exact ⟨rf', reply, hr, hs, rejected_unchanged hr hs⟩

def holding (me : Fin n) (log : List (LogEntry ℕ)) : Raft n ℕ ℕ :=
  { Raft.make me ⟨none, none⟩ with currentTerm := 2, log := ⟨0, none⟩ :: log }

/-- The second entry of the request conflicts: the log is cut there and its tail is lost. -/
theorem merge_exact_conflict :
    let rf := holding (0 : Fin 3) [⟨1, some 1⟩, ⟨1, some 2⟩, ⟨2, some 3⟩, ⟨2, some 4⟩]
    let args : AppendEntriesArgs 3 ℕ := ⟨3, 1, 1, 1, [⟨1, some 2⟩, ⟨3, some 9⟩], 0⟩
    (rf.appendEntries args).map (fun r => r.1.log) =
      some [⟨0, none⟩, ⟨1, some 1⟩, ⟨1, some 2⟩, ⟨3, some 9⟩] ∧
    ∃ rf' reply, rf.appendEntries args = some (rf', reply) ∧ reply.success = true ∧
      Merges rf rf' args ∧
      ∃ rf'' reply', rf'.appendEntries args = some (rf'', reply') ∧ SameOutcome rf'' rf' := by
  intro rf args
  have hfits : Fits rf args := ⟨by decide, by decide, by decide, ⟨1, some 1⟩, rfl, rfl⟩
  exact ⟨by decide, (merge_exact rf args (by decide)).1 hfits⟩

end results
end DistributedLabs.RaftMerge
