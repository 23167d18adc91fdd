import DistributedLabs.RaftNextIndex
import DistributedLabs.RaftCrash

set_option autoImplicit false

/-!
# Log backtracking

A leader and one follower exchange `replicateOnce` rounds and nothing else happens. Each
rejection moves `nextIndex` down until an entry matches or a snapshot is due. The search
only ends if the follower still has what it asks for: a follower that has compacted beyond
`nextIndex` and beyond the leader's own boundary refuses every message.
-/
namespace DistributedLabs.RaftBacktrack
open RaftModel RaftCluster RaftShape RaftHistory RaftBounds RaftNextIndex TermLedger Runs
open RaftSafety (adder first second third)

variable {n : ℕ} {C S : Type}

/-- One `replicateOnce`, handled and answered. A call that sends nothing is over at once. -/
def round (sm : StateMachine C S) (L p : Fin n) (s : Cluster n C S) : Option (Cluster n C S) :=
  (s.exec sm (.replicateOnce L p)).bind fun x =>
    if x.rpcs.length = s.rpcs.length then some x
    else (x.exec sm (.handle 0)).bind fun y => y.exec sm (.reply 0)

def Accepts (L p : Fin n) (s : Cluster n C S) : Prop :=
  ∃ args f reply, (s.procs L).rf.replicateOnce p = some (some (.append args)) ∧
    (s.procs p).rf.appendEntries args = some (f, reply) ∧ reply.success = true

def Settles (sm : StateMachine C S) (L p : Fin n) (s : Cluster n C S) : Prop :=
  Accepts L p s ∧ ∃ u, round sm L p s = some u ∧
    (u.procs L).rf.matchIndex p = (u.procs L).rf.lastLogIndex

def CatchesUp (sm : StateMachine C S) (L p : Fin n) (s : Cluster n C S) : Prop :=
  ∃ k x, iterate (round sm L p) k s = some x ∧ Settles sm L p x

/-- The follower's boundary is not beyond the leader's, or not beyond `nextIndex`. -/
def InReach (p : Fin n) (l f : Raft n C S) : Prop :=
  f.lastIncludedIndex ≤ l.lastIncludedIndex ∨ f.lastIncludedIndex < l.nextIndex p

section search
variable {full : List (LogEntry C)} {rf : Raft n C S}

theorem firstOfTerm_spec (h : Shape full rf) (t : ℕ) {i : ℕ} (hlow : rf.lastIncludedIndex ≤ i)
    (hhigh : i ≤ full.length) : ∃ x, rf.firstOfTerm t i = some x ∧ rf.lastIncludedIndex ≤ x ∧
      (x = rf.lastIncludedIndex → x < i → termAt full x = t) := by
  induction i with
  | zero => exact ⟨0, rfl, hlow, fun _ hlt => absurd hlt (Nat.lt_irrefl 0)⟩
  | succ i ih =>
    unfold Raft.firstOfTerm
    split_ifs with hb
    · obtain ⟨e, he, hterm⟩ := h.entryAt (i := i) (by omega) (by omega)
      simp only [he, Option.bind_eq_bind, Option.bind_some]
      split_ifs with ht
      · obtain ⟨x, hx, hbase, hend⟩ := ih (by omega) (by omega)
        refine ⟨x, hx, hbase, fun heq hlt => ?_⟩
        rcases Nat.lt_succ_iff_lt_or_eq.mp hlt with hlt | rfl
        · exact hend heq hlt
        · rw [← hterm, ht]
      · exact ⟨i + 1, rfl, hlow, fun _ hlt => absurd hlt (Nat.lt_irrefl _)⟩
    · exact ⟨i + 1, rfl, hlow, fun _ hlt => absurd hlt (Nat.lt_irrefl _)⟩

theorem lastOfTerm_spec (h : Shape full rf) (t : ℤ) {i : ℕ} (hlow : rf.lastIncludedIndex ≤ i)
    (hhigh : i ≤ full.length) : ∃ j, rf.lastOfTerm t i = some j ∧ rf.lastIncludedIndex ≤ j ∧
      j ≤ i ∧ (rf.lastIncludedIndex < j → (termAt full j : ℤ) = t) ∧
      ∀ k, j < k → k ≤ i → (termAt full k : ℤ) ≠ t := by
  have stop : ∀ j k : ℕ, j < k → k ≤ j → (termAt full k : ℤ) ≠ t := fun j k hlt hle => by omega
  induction i with
  | zero => exact ⟨0, rfl, hlow, le_refl _, fun hlt => by omega, stop 0⟩
  | succ i ih =>
    unfold Raft.lastOfTerm
    split_ifs with hb
    · obtain ⟨e, he, hterm⟩ := h.entryAt hlow hhigh
      simp only [he, Option.bind_eq_bind, Option.bind_some]
      split_ifs with ht
      · obtain ⟨j, hj, hbase, hle, hfound, hnone⟩ := ih (by omega) (by omega)
        refine ⟨j, hj, hbase, by omega, hfound, fun k hlt hk => ?_⟩
        rcases Nat.le_succ_iff.mp hk with hk | rfl
        · exact hnone k hlt hk
        · rw [← hterm]
          exact ht
      · refine ⟨i + 1, rfl, hlow, le_refl _, fun _ => ?_, stop _⟩
        rw [← hterm]
        exact not_not.mp ht
    · exact ⟨i + 1, rfl, hlow, le_refl _, fun hlt => absurd hlt hb, stop _⟩

/-- Where the hint for a conflicting term points: behind the leader's last entry of that
    term, or where the follower's stretch of it begins. -/
theorem conflictNext_spec (h : Shape full rf) {reply : AppendEntriesReply} {t : ℕ}
    (ht : reply.xTerm = t) : ∃ hint, rf.conflictNext reply = some hint ∧
      ((∃ j, hint = j + 1 ∧ j ≤ full.length ∧ termAt full j = t ∧
          ∀ k, rf.lastIncludedIndex ≤ k → k ≤ full.length → termAt full k = t → k ≤ j) ∨
        (hint = reply.xIndex ∧ ∀ k, rf.lastIncludedIndex ≤ k → k ≤ full.length →
          termAt full k ≠ t)) := by
  have hne : reply.xTerm ≠ -1 := by omega
  obtain ⟨j, hj, hbase, hle, hfirst, hnone⟩ := lastOfTerm_spec h reply.xTerm h.base (le_refl _)
  obtain ⟨e, he, hterm⟩ := h.entryAt hbase hle
  have hlater : ∀ k, k ≤ full.length → termAt full k = t → k ≤ j := by
    intro k hk heq
    by_contra hlt
    exact hnone k (by omega) hk (by rw [heq, ht])
  unfold Raft.conflictNext
  rw [if_neg hne, h.lastLogIndex]
  simp only [hj, he, Option.bind_eq_bind, Option.bind_some]
  split_ifs with hfound
  · refine ⟨j + 1, rfl, .inl ⟨j, rfl, hle, ?_, fun k _ hk heq => hlater k hk heq⟩⟩
    rw [← hterm]
    exact Int.ofNat_inj.mp (hfound.trans ht)
  · have hj : j = rf.lastIncludedIndex := by
      by_contra hne
      exact hfound (by rw [hterm]; exact hfirst (by omega))
    refine ⟨reply.xIndex, rfl, .inr ⟨rfl, fun k hlow hk heq => hfound ?_⟩⟩
    have hk := hlater k hk heq
    rw [hterm, ht, ← heq, show k = j by omega]

end search

/-- What a leader and a follower of one cluster have of each other; `X` and `Y` are their
    uncompacted logs. -/
structure Link (X Y : List (LogEntry C)) (l f : Raft n C S) (p : Fin n) : Prop where
  lead : Shape X l
  foll : Shape Y f
  leads : l.state = .leader
  term : f.currentTerm ≤ l.currentTerm
  next : l.nextIndex p ≤ X.length + 1
  known : l.matchIndex p ≤ X.length
  commit : l.lastIncludedIndex ≤ l.commitIndex
  base : Y.take f.lastIncludedIndex <+: X
  sorted : ∀ i j, i ≤ j → j ≤ X.length → termAt X i ≤ termAt X j
  sorted_foll : ∀ i j, i ≤ j → j ≤ Y.length → termAt Y i ≤ termAt Y j

/-- The leader goes from `l` to `l'` and the follower from `f` to `f'` in one round; the
    flag tells whether an `AppendEntries` was accepted. -/
inductive Exchange (l f : Raft n C S) (p : Fin n) (l' f' : Raft n C S) : Bool → Prop where
  | append (args : AppendEntriesArgs n C) (reply : AppendEntriesReply)
      (sent : l.replicateOnce p = some (some (.append args)))
      (answer : f.appendEntries args = some (f', reply))
      (done : l.appendReply p args reply = some l') : Exchange l f p l' f' reply.success
  | snapshot (args : InstallSnapshotArgs n S) (reply : InstallSnapshotReply)
      (sent : l.replicateOnce p = some (some (.snapshot args)))
      (answer : f.installSnapshot args = some (f', reply))
      (done : l' = l.snapshotReply p args reply) : Exchange l f p l' f' false

structure Kept (l l' f' : Raft n C S) : Prop where
  leads : l'.state = .leader
  term : l'.currentTerm = l.currentTerm
  base : l'.lastIncludedIndex = l.lastIncludedIndex
  joined : f'.currentTerm = l.currentTerm

section turns
variable {X Y : List (LogEntry C)} {l f : Raft n C S} {p : Fin n}

def probe (X : List (LogEntry C)) (l : Raft n C S) (p : Fin n) : AppendEntriesArgs n C :=
  ⟨l.currentTerm, l.me, l.nextIndex p - 1, termAt X (l.nextIndex p - 1),
    X.drop (l.nextIndex p - 1), l.commitIndex⟩

theorem sends_probe (h : Link X Y l f p) (hlow : l.lastIncludedIndex < l.nextIndex p) :
    l.replicateOnce p = some (some (.append (probe X l p))) := by
  have hnext := h.next
  have hprev : l.lastIncludedIndex ≤ l.nextIndex p - 1 := by omega
  obtain ⟨e, he, hterm⟩ := h.lead.entryAt hprev (by omega)
  unfold Raft.replicateOnce
  dsimp only
  rw [if_neg (by simp [h.leads]), if_neg (by omega), if_neg (by rw [h.lead.lastLogIndex]; omega)]
  simp only [h.lead.entriesAfter hprev, he, Option.bind_eq_bind, Option.bind_some, hterm]
  rfl

theorem shape_follow (h : Shape Y f) (t : ℕ) : Shape Y (f.follow t) := by
  unfold Raft.follow
  split_ifs <;> exact ⟨h.base, h.log, h.baseTerm⟩

theorem Link.length_pos (h : Link X Y l f p) : 0 < f.log.length := by
  rw [h.foll.length]
  omega

theorem answers_probe (h : Link X Y l f p) {reply : AppendEntriesReply}
    (hans : RaftCrash.appendAnswer (f.follow l.currentTerm) (probe X l p) = some reply) :
    ∃ f', f.appendEntries (probe X l p) = some (f', reply) := by
  have hmap := RaftCrash.appendEntries_answer h.length_pos (show _ ≤ (probe X l p).term from h.term)
  obtain ⟨⟨f', reply'⟩, hanswer, heq⟩ := Option.map_eq_some_iff.mp (hmap.trans hans)
  cases heq
  exact ⟨f', hanswer⟩

theorem probe_current (h : Link X Y l f p) :
    ¬ (l.state ≠ .leader ∨ l.currentTerm ≠ (probe X l p).term) := by
  simp [h.leads, probe]

theorem turn_refused (h : Link X Y l f p) (hlow : l.lastIncludedIndex < l.nextIndex p)
    {reply : AppendEntriesReply} {hint : ℕ}
    (hans : RaftCrash.appendAnswer (f.follow l.currentTerm) (probe X l p) = some reply)
    (hno : reply.success = false) (hterm : reply.term = l.currentTerm)
    (hhint : l.conflictNext reply = some hint) : ∃ l' f', Exchange l f p l' f' false ∧
      Kept l l' f' ∧ f'.lastIncludedIndex = f.lastIncludedIndex ∧
      l'.nextIndex p = backedUp l p hint := by
  obtain ⟨f', hanswer⟩ := answers_probe h hans
  have hdone : l.appendReply p (probe X l p) reply =
      some { l with nextIndex := Function.update l.nextIndex p (backedUp l p hint) } := by
    have hlate : l.nextIndex p ≤ (probe X l p).prevLogIndex + 1 := by
      simp only [probe]
      omega
    unfold Raft.appendReply
    rw [if_neg (probe_current h), if_neg (by omega), if_neg (by simp [hno]), if_pos hlate]
    exact backupNextIndex_spec hhint
  have hx := Exchange.append (probe X l p) reply (sends_probe h hlow) hanswer hdone
  rw [hno] at hx
  obtain ⟨_, hjoined, _, hbase⟩ := appendEntries_frame hanswer h.term
  exact ⟨_, f', hx, ⟨h.leads, rfl, rfl, hjoined⟩, hbase, Function.update_self ..⟩

theorem Link.base_le (h : Link X Y l f p) : f.lastIncludedIndex ≤ X.length := by
  have hle := h.base.length_le
  rw [List.length_take, Nat.min_eq_left h.foll.base] at hle
  exact hle

/-- The follower's boundary is a committed entry, which the leader has too. -/
theorem Link.base_term (h : Link X Y l f p) :
    termAt X f.lastIncludedIndex = termAt Y f.lastIncludedIndex := by
  rw [termAt_initial h.base (by rw [List.length_take, Nat.min_eq_left h.foll.base]),
    termAt_take Y (le_refl _) h.foll.base]

theorem turn_below (h : Link X Y l f p) (hlow : l.lastIncludedIndex < l.nextIndex p)
    (hbelow : l.nextIndex p - 1 < f.lastIncludedIndex) : ∃ l' f', Exchange l f p l' f' false ∧
      Kept l l' f' ∧ f'.lastIncludedIndex = f.lastIncludedIndex ∧
      l'.nextIndex p = backedUp l p (f.lastIncludedIndex + 1) := by
  have hans : RaftCrash.appendAnswer (f.follow l.currentTerm) (probe X l p) =
      some ⟨l.currentTerm, false, -1, 0, f.lastIncludedIndex + 1⟩ := by
    unfold RaftCrash.appendAnswer
    rw [if_pos (by rw [follow_base]; exact hbelow), follow_base, follow_term h.term]
  exact turn_refused h hlow hans rfl rfl (by simp [Raft.conflictNext])

theorem turn_behind (h : Link X Y l f p) (hlow : l.lastIncludedIndex < l.nextIndex p)
    (hbase : f.lastIncludedIndex ≤ l.nextIndex p - 1) (hlong : Y.length < l.nextIndex p - 1) :
    ∃ l' f', Exchange l f p l' f' false ∧ Kept l l' f' ∧
      f'.lastIncludedIndex = f.lastIncludedIndex ∧
      l'.nextIndex p = backedUp l p (Y.length + 1) := by
  have hshape := shape_follow h.foll l.currentTerm
  have hans : RaftCrash.appendAnswer (f.follow l.currentTerm) (probe X l p) =
      some ⟨l.currentTerm, false, -1, 0, Y.length + 1⟩ := by
    unfold RaftCrash.appendAnswer
    rw [if_neg (by rw [follow_base]; exact not_lt.mpr hbase),
      if_pos (by rw [hshape.lastLogIndex]; exact hlong), hshape.lastLogIndex, follow_term h.term]
  exact turn_refused h hlow hans rfl rfl (by simp [Raft.conflictNext])

theorem answer_inside (h : Shape Y f) {args : AppendEntriesArgs n C}
    (hbase : f.lastIncludedIndex ≤ args.prevLogIndex) (hin : args.prevLogIndex ≤ Y.length) :
    (termAt Y args.prevLogIndex = args.prevLogTerm →
      RaftCrash.appendAnswer f args = some ⟨f.currentTerm, true, 0, 0, 0⟩) ∧
    (termAt Y args.prevLogIndex ≠ args.prevLogTerm → ∃ x, RaftCrash.appendAnswer f args =
        some ⟨f.currentTerm, false, termAt Y args.prevLogIndex, x, Y.length + 1⟩ ∧
      f.lastIncludedIndex ≤ x ∧ (x = f.lastIncludedIndex → x < args.prevLogIndex →
        termAt Y x = termAt Y args.prevLogIndex)) := by
  obtain ⟨e, he, hterm⟩ := h.entryAt hbase hin
  obtain ⟨x, hx, hxlow, hxend⟩ := firstOfTerm_spec h (termAt Y args.prevLogIndex) hbase hin
  have hans : RaftCrash.appendAnswer f args =
      if e.term ≠ args.prevLogTerm then
        (f.firstOfTerm e.term args.prevLogIndex).map fun x =>
          ⟨f.currentTerm, false, e.term, x, f.lastLogIndex + 1⟩
      else some ⟨f.currentTerm, true, 0, 0, 0⟩ := by
    unfold RaftCrash.appendAnswer
    rw [if_neg (not_lt.mpr hbase), if_neg (by rw [h.lastLogIndex]; exact not_lt.mpr hin), he]
    simp only [Option.bind_eq_bind, Option.bind_some]
    cases f.firstOfTerm e.term args.prevLogIndex <;> rfl
  rw [hterm, hx, h.lastLogIndex] at hans
  constructor
  · intro heq
    rw [hans, if_neg (not_not.mpr heq)]
  · intro hne
    exact ⟨x, by rw [hans, if_pos hne]; rfl, hxlow, hxend⟩

/-- A message from inside the follower's log that does not match. The hint stays above the
    follower's boundary, where both logs agree. -/
theorem turn_conflict (h : Link X Y l f p) (hlow : l.lastIncludedIndex < l.nextIndex p)
    (hbase : f.lastIncludedIndex ≤ l.nextIndex p - 1) (hin : l.nextIndex p - 1 ≤ Y.length)
    (hne : termAt Y (l.nextIndex p - 1) ≠ termAt X (l.nextIndex p - 1)) :
    ∃ l' f' hint, Exchange l f p l' f' false ∧ Kept l l' f' ∧
      f'.lastIncludedIndex = f.lastIncludedIndex ∧ l'.nextIndex p = backedUp l p hint ∧
      (l.lastIncludedIndex ≤ f.lastIncludedIndex → f.lastIncludedIndex < hint) := by
  obtain ⟨x, hans, hxlow, hxend⟩ := (answer_inside (shape_follow h.foll l.currentTerm)
    (show _ ≤ (probe X l p).prevLogIndex by rw [follow_base]; exact hbase) hin).2 hne
  rw [follow_term h.term] at hans
  rw [follow_base] at hxlow hxend
  obtain ⟨hint, hhint, hcases⟩ := conflictNext_spec h.lead
    (rfl : (⟨l.currentTerm, false, termAt Y (l.nextIndex p - 1), x, Y.length + 1⟩ :
      AppendEntriesReply).xTerm = (termAt Y (l.nextIndex p - 1) : ℕ))
  obtain ⟨l', f', hex, hkept, hbase', hnext⟩ := turn_refused h hlow hans rfl rfl hhint
  refine ⟨l', f', hint, hex, hkept, hbase', hnext, fun hahead => ?_⟩
  have hle := h.sorted_foll _ _ hbase hin
  -- both logs have the same term at the boundary, so the conflict lies above it
  have habove : f.lastIncludedIndex < l.nextIndex p - 1 := by
    refine lt_of_le_of_ne hbase fun heq => hne ?_
    rw [← heq, h.base_term]
  rcases hcases with ⟨j, rfl, hj, hfound, hlast⟩ | ⟨rfl, hnone⟩
  · by_contra hlt
    have hsorted := h.sorted j f.lastIncludedIndex (by omega) h.base_le
    rw [hfound, h.base_term] at hsorted
    have hmax := hlast _ hahead h.base_le (h.base_term.trans (le_antisymm hle hsorted))
    omega
  · refine lt_of_le_of_ne hxlow fun heq => ?_
    have hb := hxend heq.symm (heq ▸ habove)
    rw [← heq] at hb
    exact hnone _ hahead h.base_le (h.base_term.trans hb)

theorem advanceCommitIndex_keeps {rf rf' : Raft n C S} (h : rf.advanceCommitIndex = some rf') :
    rf' = { rf with commitIndex := rf'.commitIndex } := by
  rcases advanceCommitIndex_cases h with rfl | ⟨N, e, _, _, _, _, _, _, rfl⟩ <;> rfl

theorem turn_accepted (h : Link X Y l f p) (hlow : l.lastIncludedIndex < l.nextIndex p)
    (hbase : f.lastIncludedIndex ≤ l.nextIndex p - 1) (hin : l.nextIndex p - 1 ≤ Y.length)
    (heq : termAt Y (l.nextIndex p - 1) = termAt X (l.nextIndex p - 1)) :
    ∃ l' f', Exchange l f p l' f' true ∧ Kept l l' f' ∧ l'.matchIndex p = l'.lastLogIndex := by
  have hnext := h.next
  have hinside := (answer_inside (shape_follow h.foll l.currentTerm)
    (show _ ≤ (probe X l p).prevLogIndex by rw [follow_base]; exact hbase) hin).1 heq
  rw [follow_term h.term] at hinside
  obtain ⟨f', hanswer⟩ := answers_probe h hinside
  have hmatch : (probe X l p).prevLogIndex + (probe X l p).entries.length = X.length := by
    simp only [probe, List.length_drop]
    omega
  have hpos : 0 < l.log.length := by
    rw [h.lead.length]
    omega
  obtain ⟨l', hl'⟩ := Option.isSome_iff_exists.mp (appendReply_some hpos h.commit p (probe X l p)
    ⟨l.currentTerm, true, 0, 0, 0⟩)
  have hx := Exchange.append (probe X l p) _ (sends_probe h hlow) hanswer hl'
  refine ⟨l', f', hx, ?_⟩
  unfold Raft.appendReply at hl'
  rw [if_neg (probe_current h), if_neg (Nat.lt_irrefl _), if_pos rfl, hmatch] at hl'
  have hkeep := advanceCommitIndex_keeps hl'
  rw [hkeep]
  refine ⟨⟨h.leads, rfl, rfl, (appendEntries_frame hanswer h.term).2.1⟩, ?_⟩
  change (if l.matchIndex p < X.length then Function.update l.matchIndex p X.length
    else l.matchIndex) p = l.lastLogIndex
  rw [h.lead.lastLogIndex]
  split_ifs with hlt
  · exact Function.update_self ..
  · exact le_antisymm h.known (not_lt.mp hlt)

theorem install_base (rf : Raft n C S) (args : InstallSnapshotArgs n S)
    (newLog : List (LogEntry C)) :
    (rf.install args newLog).lastIncludedIndex = args.lastIncludedIndex := by
  unfold Raft.install
  dsimp only
  split_ifs <;> rfl

theorem installSnapshot_frame {args : InstallSnapshotArgs n S} (hpos : 0 < f.log.length)
    (hle : f.currentTerm ≤ args.term) : ∃ f', f.installSnapshot args = some (f', ⟨args.term⟩) ∧
      f'.currentTerm = args.term ∧
      f'.lastIncludedIndex = max f.lastIncludedIndex args.lastIncludedIndex := by
  obtain ⟨⟨f', reply⟩, h⟩ := Option.isSome_iff_exists.mp (installSnapshot_some hpos args)
  have hreply : reply = ⟨args.term⟩ := by
    have hx := h
    unfold Raft.installSnapshot at hx
    dsimp only at hx
    rw [if_neg (by omega), follow_term hle] at hx
    split_ifs at hx
    · exact (Prod.mk.inj (Option.some.inj hx)).2.symm
    · obtain ⟨newLog, _, hx⟩ := Option.bind_eq_some_iff.mp hx
      exact (Prod.mk.inj (Option.some.inj hx)).2.symm
  subst hreply
  refine ⟨f', h, ?_⟩
  rcases installSnapshot_cases h with ⟨hlt, _⟩ | ⟨_, hold, rfl⟩ | ⟨_, hnew, newLog, _, rfl⟩
  · omega
  · rw [follow_base]
    exact ⟨follow_term hle, by omega⟩
  · rw [install_base, (install_frame _ args newLog).1]
    exact ⟨follow_term hle, by omega⟩

theorem turn_snapshot (h : Link X Y l f p) (hlow : l.nextIndex p ≤ l.lastIncludedIndex) :
    ∃ l' f', Exchange l f p l' f' false ∧ Kept l l' f' ∧
      f'.lastIncludedIndex = max f.lastIncludedIndex l.lastIncludedIndex ∧
      l'.nextIndex p = l.lastIncludedIndex + 1 := by
  have hsent : l.replicateOnce p = some (some (.snapshot ⟨l.currentTerm, l.me,
      l.lastIncludedIndex, l.lastIncludedTerm, l.snapshot⟩)) := by
    unfold Raft.replicateOnce
    rw [if_neg (by simp [h.leads]), if_pos hlow]
  obtain ⟨f', hanswer, hjoined, hbase⟩ := installSnapshot_frame h.length_pos
    (show _ ≤ (⟨l.currentTerm, l.me, l.lastIncludedIndex, l.lastIncludedTerm, l.snapshot⟩ :
      InstallSnapshotArgs n S).term from h.term)
  refine ⟨_, f', .snapshot _ _ hsent hanswer rfl, ?_⟩
  unfold Raft.snapshotReply
  dsimp only
  rw [if_neg (by simp [h.leads]), if_neg (Nat.lt_irrefl _)]
  refine ⟨⟨h.leads, rfl, rfl, hjoined⟩, hbase, ?_⟩
  dsimp only
  rw [if_pos (by omega)]
  exact Function.update_self ..

def rank (p : Fin n) (l f : Raft n C S) : ℕ :=
  if f.lastIncludedIndex = l.lastIncludedIndex ∧ l.nextIndex p = l.lastIncludedIndex + 1 then 0
  else if l.nextIndex p ≤ l.lastIncludedIndex then 1
  else l.nextIndex p + 1

theorem refused_rank {l' f' : Raft n C S} {hint : ℕ} (hr : InReach p l f) (hk : Kept l l' f')
    (hbase : f'.lastIncludedIndex = f.lastIncludedIndex)
    (hnext : l'.nextIndex p = backedUp l p hint) (hlow : l.lastIncludedIndex < l.nextIndex p)
    (hlast : 1 < l.nextIndex p) (habove : f.lastIncludedIndex ≠ l.nextIndex p - 1)
    (hhint : l.lastIncludedIndex ≤ f.lastIncludedIndex → f.lastIncludedIndex < hint) :
    InReach p l' f' ∧ rank p l' f' < rank p l f := by
  unfold InReach rank at *
  unfold backedUp at hnext
  rw [hk.base, hbase, hnext]
  constructor
  · omega
  · rw [if_neg (by omega : ¬ (f.lastIncludedIndex = l.lastIncludedIndex ∧
      l.nextIndex p = l.lastIncludedIndex + 1)), if_neg (by omega : ¬ l.nextIndex p ≤
        l.lastIncludedIndex)]
    split_ifs <;> omega

theorem turn_inReach (h : Link X Y l f p) (hr : InReach p l f) :
    (∃ l' f', Exchange l f p l' f' true ∧ Kept l l' f' ∧ l'.matchIndex p = l'.lastLogIndex) ∨
    (∃ l' f', Exchange l f p l' f' false ∧ Kept l l' f' ∧ InReach p l' f' ∧
      rank p l' f' < rank p l f) := by
  by_cases hlow : l.nextIndex p ≤ l.lastIncludedIndex
  · obtain ⟨l', f', hx, hk, hbase, hnext⟩ := turn_snapshot h hlow
    have hsame : f'.lastIncludedIndex = l.lastIncludedIndex := by
      unfold InReach at hr
      omega
    refine .inr ⟨l', f', hx, hk, .inl (by rw [hk.base, hsame]), ?_⟩
    unfold rank
    rw [hk.base, if_pos ⟨hsame, hnext⟩, if_neg (by omega), if_pos hlow]
    exact Nat.one_pos
  · have hbase : f.lastIncludedIndex ≤ l.nextIndex p - 1 := by
      unfold InReach at hr
      omega
    have hfoll := h.foll.base
    by_cases hin : l.nextIndex p - 1 ≤ Y.length
    · by_cases heq : termAt Y (l.nextIndex p - 1) = termAt X (l.nextIndex p - 1)
      · exact .inl (turn_accepted h (not_le.mp hlow) hbase hin heq)
      · obtain ⟨l', f', hint, hx, hk, hb, hnext, hhint⟩ :=
          turn_conflict h (not_le.mp hlow) hbase hin heq
        have hlast : 1 < l.nextIndex p := by
          by_contra hone
          exact heq (by rw [show l.nextIndex p - 1 = 0 by omega]; rfl)
        have habove : f.lastIncludedIndex ≠ l.nextIndex p - 1 := fun hb => heq (by
          rw [← hb, h.base_term])
        exact .inr ⟨l', f', hx, hk, refused_rank hr hk hb hnext (not_le.mp hlow) hlast habove hhint⟩
    · obtain ⟨l', f', hx, hk, hb, hnext⟩ :=
        turn_behind h (not_le.mp hlow) hbase (not_le.mp hin)
      exact .inr ⟨l', f', hx, hk, refused_rank hr hk hb hnext (not_le.mp hlow) (by omega)
        (by omega) (fun _ => by omega)⟩

/-- Out of reach, every message is refused and `nextIndex` stays where it cannot help. -/
theorem turn_outOfReach (h : Link X Y l f p) (hr : ¬ InReach p l f) :
    ∃ l' f', Exchange l f p l' f' false ∧ Kept l l' f' ∧ ¬ InReach p l' f' := by
  unfold InReach at hr ⊢
  by_cases hlow : l.nextIndex p ≤ l.lastIncludedIndex
  · obtain ⟨l', f', hx, hk, hbase, hnext⟩ := turn_snapshot h hlow
    refine ⟨l', f', hx, hk, ?_⟩
    rw [hk.base, hbase, hnext]
    omega
  · obtain ⟨l', f', hx, hk, hbase, hnext⟩ := turn_below h (not_le.mp hlow) (by omega)
    refine ⟨l', f', hx, hk, ?_⟩
    rw [hk.base, hbase, hnext]
    unfold backedUp
    omega

end turns

section rounds
variable {sm : StateMachine C S} {s u : Cluster n C S} {L p : Fin n} {l' f' : Raft n C S}
  {accepted : Bool} {tr : List (Transition (Cluster n C S) (Label n C))}

theorem round_of_steps {r : Rpc n C S} {y : Cluster n C S}
    (hsend : s.exec sm (.replicateOnce L p) = some { s with rpcs := r :: s.rpcs })
    (hhandle : Cluster.exec sm { s with rpcs := r :: s.rpcs } (.handle 0) = some y)
    (hreply : y.exec sm (.reply 0) = some u) : round sm L p s = some u := by
  have hlen : ¬ (r :: s.rpcs).length = s.rpcs.length := by simp
  rw [round, hsend, Option.bind_some, if_neg hlen, hhandle, Option.bind_some, hreply]

theorem round_of_exchange (hne : p ≠ L)
    (h : Exchange (s.procs L).rf (s.procs p).rf p l' f' accepted) :
    round sm L p s = some ((s.setRaft p f').setRaft L l') := by
  have hL : ∀ rpcs, (Cluster.setRaft { s with rpcs := rpcs } p f').procs L = s.procs L :=
    fun _ => Function.update_of_ne hne.symm _ _
  cases h with
  | append args reply sent answer done =>
    apply round_of_steps
    · rw [Cluster.exec, Cluster.replicateOnce, if_neg hne]
      dsimp only
      rw [sent]
      rfl
    · rw [Cluster.exec, Cluster.handle]
      simp only [List.getElem?_cons_zero, answer, Option.bind_eq_bind, Option.bind_some]
      rfl
    · rw [Cluster.exec, Cluster.reply]
      simp only [List.set_cons_zero, List.getElem?_cons_zero, Option.bind_eq_bind,
        Option.bind_some, hL, ne_eq, not_true_eq_false, if_false, done]
      rfl
  | snapshot args reply sent answer done =>
    subst done
    apply round_of_steps
    · rw [Cluster.exec, Cluster.replicateOnce, if_neg hne]
      dsimp only
      rw [sent]
      rfl
    · rw [Cluster.exec, Cluster.handle]
      simp only [List.getElem?_cons_zero, answer, Option.bind_eq_bind, Option.bind_some]
      rfl
    · rw [Cluster.exec, Cluster.reply]
      simp only [List.set_cons_zero, List.getElem?_cons_zero, Option.bind_eq_bind,
        Option.bind_some, hL, ne_eq, not_true_eq_false, if_false]
      rfl

theorem accepts_iff (h : Exchange (s.procs L).rf (s.procs p).rf p l' f' accepted) :
    Accepts L p s ↔ accepted = true := by
  constructor
  · rintro ⟨args, f, reply, hsent, hanswer, hyes⟩
    cases h with
    | append args' reply' sent answer done =>
      rw [sent] at hsent
      cases hsent
      rw [answer] at hanswer
      cases hanswer
      exact hyes
    | snapshot args' reply' sent answer done =>
      rw [sent] at hsent
      cases hsent
  · intro hyes
    cases h with
    | append args' reply' sent answer done => exact ⟨args', f', reply', sent, answer, hyes⟩
    | snapshot => cases hyes

theorem round_run (run : Run (cluster n sm) tr s) (h : round sm L p s = some u) :
    ∃ tr', Run (cluster n sm) tr' u := by
  obtain ⟨x, hx, h⟩ := Option.bind_eq_some_iff.mp h
  have run' := run.next hx
  split_ifs at h
  · cases h
    exact ⟨_, run'⟩
  · obtain ⟨y, hy, h⟩ := Option.bind_eq_some_iff.mp h
    exact ⟨_, (run'.next hy).next h⟩

theorem link_of_run (run : Run (cluster n sm) tr s) (hlead : (s.procs L).rf.state = .leader)
    (hterm : (s.procs p).rf.currentTerm ≤ (s.procs L).rf.currentTerm) :
    ∃ X Y, Link X Y (s.procs L).rf (s.procs p).rf p := by
  obtain ⟨g, hi, _⟩ := RaftSafety.visits_inv run
  have hl := (hi.procs L).raft
  have hf := (hi.procs p).raft
  obtain ⟨ld, hld, _, hlog⟩ := hl.leader_log hi.valid hlead
  have hnext := next_ok run L hlead p
  rw [hl.shape.lastLogIndex] at hnext
  refine ⟨g.log L, g.log p, hl.shape, hf.shape, hlead, hterm, hnext, ?_, hl.base_le, ?_,
    RaftSafety.termAt_sorted hi.valid L, RaftSafety.termAt_sorted hi.valid p⟩
  · -- what is acknowledged is in the leader's log
    have hack : g.ack p (s.procs L).rf.currentTerm ≤ (g.log L).length := by
      rcases Nat.eq_zero_or_pos (g.ack p (s.procs L).rf.currentTerm) with hzero | hpos
      · omega
      · obtain ⟨ld', hld', hle⟩ := hi.valid.ack_lead _ _ hpos
        rw [hld] at hld'
        cases hld'
        rw [hlog]
        exact hle
    have hmatch := hl.acked hlead p
    have hcommit := hl.commit_le
    omega
  · -- the follower's snapshot is of committed entries, which the leader has
    have hsealed := hf.committed.restrict (m := (g.log p).take (s.procs p).rf.lastIncludedIndex) (by
      rw [← Nat.min_eq_left hf.base_le, ← List.take_take]
      exact List.take_prefix _ _)
    rw [hlog]
    exact hsealed.in_lead hi.valid hterm hld

structure Exchanging (sm : StateMachine C S) (L p : Fin n) (s : Cluster n C S) : Prop where
  reached : ∃ tr, Run (cluster n sm) tr s
  leads : (s.procs L).rf.state = .leader
  term : (s.procs p).rf.currentTerm ≤ (s.procs L).rf.currentTerm

theorem Exchanging.link (h : Exchanging sm L p s) :
    ∃ X Y, Link X Y (s.procs L).rf (s.procs p).rf p := by
  obtain ⟨tr, run⟩ := h.reached
  exact link_of_run run h.leads h.term

theorem Exchanging.next (h : Exchanging sm L p s) (hne : p ≠ L)
    (hx : Exchange (s.procs L).rf (s.procs p).rf p l' f' accepted)
    (hk : Kept (s.procs L).rf l' f') : ∃ u, round sm L p s = some u ∧ Exchanging sm L p u ∧
      (u.procs L).rf = l' ∧ (u.procs p).rf = f' := by
  have hround : round sm L p s = _ := round_of_exchange hne hx
  obtain ⟨tr, run⟩ := h.reached
  have hL : (((s.setRaft p f').setRaft L l').procs L).rf = l' := by
    simp [Cluster.setRaft, Cluster.setProc]
  have hp : (((s.setRaft p f').setRaft L l').procs p).rf = f' := by
    simp [Cluster.setRaft, Cluster.setProc, hne]
  refine ⟨_, hround, ⟨round_run run hround, ?_, ?_⟩, hL, hp⟩
  · rw [hL]
    exact hk.leads
  · rw [hL, hp, hk.joined, hk.term]

def Searching (sm : StateMachine C S) (L p : Fin n) (s : Cluster n C S) : Prop :=
  Exchanging sm L p s ∧ InReach p (s.procs L).rf (s.procs p).rf

theorem search_step (hne : p ≠ L) (s : Cluster n C S) (h : Searching sm L p s) :
    Settles sm L p s ∨ ∃ u, round sm L p s = some u ∧ Searching sm L p u ∧
      rank p (u.procs L).rf (u.procs p).rf < rank p (s.procs L).rf (s.procs p).rf := by
  obtain ⟨hs, hr⟩ := h
  obtain ⟨X, Y, hlink⟩ := hs.link
  rcases turn_inReach hlink hr with ⟨l', f', hx, hk, hmatch⟩ | ⟨l', f', hx, hk, hr', hlt⟩
  · obtain ⟨u, hu, _, hL, _⟩ := hs.next hne hx hk
    rw [← hL] at hmatch
    exact .inl ⟨(accepts_iff hx).mpr rfl, u, hu, hmatch⟩
  · obtain ⟨u, hu, hs', hL, hp⟩ := hs.next hne hx hk
    rw [← hL, ← hp] at hr' hlt
    exact .inr ⟨u, hu, ⟨hs', hr'⟩, hlt⟩

theorem catchesUp_of_inReach (hne : p ≠ L) (h : Searching sm L p s) : CatchesUp sm L p s := by
  obtain ⟨k, x, hx, _, hgoal⟩ := iterate_reaches
    (fun s : Cluster n C S => rank p (s.procs L).rf (s.procs p).rf) (search_step hne) h
  exact ⟨k, x, hx, hgoal⟩

theorem never_accepts (hne : p ≠ L) (h : Exchanging sm L p s)
    (hr : ¬ InReach p (s.procs L).rf (s.procs p).rf) (k : ℕ) :
    ∃ x, iterate (round sm L p) k s = some x ∧ ¬ Accepts L p x := by
  induction k generalizing s with
  | zero =>
    obtain ⟨X, Y, hlink⟩ := h.link
    obtain ⟨l', f', hx, _⟩ := turn_outOfReach hlink hr
    exact ⟨s, rfl, fun hacc => by cases (accepts_iff hx).mp hacc⟩
  | succ k ih =>
    obtain ⟨X, Y, hlink⟩ := h.link
    obtain ⟨l', f', hx, hk, hr'⟩ := turn_outOfReach hlink hr
    obtain ⟨u, hu, hs, hL, hp⟩ := h.next hne hx hk
    obtain ⟨x, hx, hno⟩ := ih hs (by rw [hL, hp]; exact hr')
    exact ⟨x, by rw [iterate, hu]; exact hx, hno⟩

theorem not_catchesUp (h : ∀ k, ∃ x, iterate (round sm L p) k s = some x ∧ ¬ Accepts L p x) :
    ¬ CatchesUp sm L p s := by
  rintro ⟨k, x, hx, hacc, _⟩
  obtain ⟨x', hx', hno⟩ := h k
  rw [hx] at hx'
  cases hx'
  exact hno hacc

theorem backtracking_iff (run : Run (cluster n sm) tr s) (hlead : (s.procs L).rf.state = .leader)
    (hne : p ≠ L) (hterm : (s.procs p).rf.currentTerm ≤ (s.procs L).rf.currentTerm) :
    CatchesUp sm L p s ↔ InReach p (s.procs L).rf (s.procs p).rf := by
  have h : Exchanging sm L p s := ⟨⟨tr, run⟩, hlead, hterm⟩
  constructor
  · intro hc
    by_contra hr
    exact not_catchesUp (never_accepts hne h hr) hc
  · exact fun hr => catchesUp_of_inReach hne ⟨h, hr⟩

end rounds

section samples

/-- The first peer commits a command with the third one; then the third one leads term 2,
    and its `nextIndex` for the second one, which has nothing, is 2. -/
def newLeader : Option (List (Transition (Cluster 3 ℕ ℕ) (Label 3 ℕ)) × Cluster 3 ℕ ℕ) :=
  replay (Cluster.exec adder) (initial adder) []
    [.tick first, .startElection first, .sendRequestVote first 1 third, .handle 0, .reply 0,
      .start first (some 7), .replicateOnce first third, .handle 0, .reply 0, .tick third,
      .startElection third, .sendRequestVote third 2 first, .handle 0, .reply 0]

theorem backtracking_newLeader : ∃ r, newLeader = some r ∧ (r.2.procs 2).rf.nextIndex 1 = 2 ∧
    (r.2.procs 1).rf.lastLogIndex = 0 ∧ CatchesUp adder 2 1 r.2 := by
  have hsome : newLeader.map (fun r => decide ((r.2.procs 2).rf.nextIndex 1 = 2 ∧
      (r.2.procs 1).rf.lastLogIndex = 0 ∧ (r.2.procs 2).rf.state = .leader ∧
      (r.2.procs 1).rf.currentTerm ≤ (r.2.procs 2).rf.currentTerm ∧
      (r.2.procs 1).rf.lastIncludedIndex ≤ (r.2.procs 2).rf.lastIncludedIndex)) = some true := by
    decide +kernel
  obtain ⟨r, hr, hd⟩ := Option.map_eq_some_iff.mp hsome
  obtain ⟨hnext, hlast, hlead, hterm, hbase⟩ := of_decide_eq_true hd
  have run : Run (cluster 3 adder) r.1 r.2 :=
    Run.replay (fun _ _ _ h => h) _ (.start rfl) hr
  exact ⟨r, hr, hnext, hlast, (backtracking_iff run hlead (by decide) hterm).mpr (.inl hbase)⟩

/-- The second peer accepts and commits a command and compacts its log, but its replies are
    lost: the leader's `nextIndex` for it is still 1. -/
def lostReplies : Option (List (Transition (Cluster 3 ℕ ℕ) (Label 3 ℕ)) × Cluster 3 ℕ ℕ) :=
  replay (Cluster.exec adder) (initial adder) []
    [.tick first, .startElection first, .sendRequestVote first 1 third, .handle 0, .reply 0,
      .start first (some 7), .replicateOnce first third, .handle 0, .reply 0,
      .replicateOnce first second, .handle 0, .lose 0, .applier second, .send second,
      .receive second, .snapshot second 0]

theorem compacted_follower_refuses : ∃ r, lostReplies = some r ∧
    Run (cluster 3 adder) r.1 r.2 ∧ (r.2.procs 0).rf.state = .leader ∧
    (r.2.procs 1).rf.currentTerm ≤ (r.2.procs 0).rf.currentTerm ∧
    (∀ k, ∃ x, iterate (round adder 0 1) k r.2 = some x ∧ ¬ Accepts 0 1 x) ∧
    ¬ CatchesUp adder 0 1 r.2 := by
  have hsome : lostReplies.map (fun r => decide ((r.2.procs 0).rf.state = .leader ∧
      (r.2.procs 1).rf.currentTerm ≤ (r.2.procs 0).rf.currentTerm ∧
      (r.2.procs 0).rf.lastIncludedIndex < (r.2.procs 1).rf.lastIncludedIndex ∧
      (r.2.procs 0).rf.nextIndex 1 ≤ (r.2.procs 1).rf.lastIncludedIndex)) = some true := by
    decide +kernel
  obtain ⟨r, hr, hd⟩ := Option.map_eq_some_iff.mp hsome
  obtain ⟨hlead, hterm, hbase, hnext⟩ := of_decide_eq_true hd
  have run : Run (cluster 3 adder) r.1 r.2 :=
    Run.replay (fun _ _ _ h => h) _ (.start rfl) hr
  have hr' : ¬ InReach 1 (r.2.procs 0).rf (r.2.procs 1).rf := by
    unfold InReach
    omega
  have hnever := never_accepts (by decide) ⟨⟨_, run⟩, hlead, hterm⟩ hr'
  exact ⟨r, hr, run, hlead, hterm, hnever, not_catchesUp hnever⟩

end samples
end DistributedLabs.RaftBacktrack
