import DistributedLabs.RaftMerge

set_option autoImplicit false

/-!
# A follower commits what the message vouches for

`AppendEntries` bounds the new `commitIndex` by the follower's own last index and
keeps entries behind the message that nobody has compared. Alone that would be
unsafe. A leader always sends its whole suffix, and its `commitIndex` is within its
log, so no request asks for more than it carries or has had compared.
-/
namespace DistributedLabs.RaftVouched
open RaftModel RaftCluster RaftShape RaftHistory RaftMerge Runs

variable {n : ℕ} {C S : Type}

/-- The last index a request says anything about. -/
def covered (args : AppendEntriesArgs n C) : ℕ := args.prevLogIndex + args.entries.length

inductive Accepts (t : Transition (Cluster n C S) (Label n C)) (v : Fin n)
    (args : AppendEntriesArgs n C) : Prop where
  | intro (k epoch : ℕ) (caller : Fin n) (reply : AppendEntriesReply)
      (label : t.label = .handle k)
      (answered : t.post.rpcs[k]? = some ⟨caller, epoch, v, .appendEntries args (some reply)⟩)
      (success : reply.success = true) : Accepts t v args

/-- A run in which requests and their effects stay within what the requests cover. -/
structure Vouched (tr : List (Transition (Cluster n C S) (Label n C))) (s : Cluster n C S) :
    Prop where
  sent : ∀ x, Visits tr s x → ∀ r ∈ x.rpcs, ∀ args reply,
    r.call = .appendEntries args reply → args.leaderCommit ≤ covered args
  committed : ∀ t ∈ tr, ∀ v args, Accepts t v args →
    (t.post.procs v).rf.commitIndex = (t.pre.procs v).rf.commitIndex ∨
      (t.post.procs v).rf.commitIndex ≤ covered args

theorem followCommit_le (rf : Raft n C S) (leaderCommit : ℕ) :
    (rf.followCommit leaderCommit).commitIndex = rf.commitIndex ∨
      (rf.followCommit leaderCommit).commitIndex ≤ leaderCommit := by
  rw [followCommit_eq]
  dsimp only
  split_ifs
  · exact .inr (Nat.min_le_left _ _)
  · exact .inl rfl

theorem appendEntries_commit {rf rf' : Raft n C S} {args : AppendEntriesArgs n C}
    {reply : AppendEntriesReply} (h : rf.appendEntries args = some (rf', reply)) :
    rf'.commitIndex = rf.commitIndex ∨ rf'.commitIndex ≤ args.leaderCommit := by
  cases hs : reply.success with
  | false => exact .inl (rejected_unchanged h hs).2
  | true =>
    rw [appendEntries_fits (fits_of_success h hs)] at h
    cases h
    rw [← merged_commit rf args]
    exact followCommit_le (merged rf args) args.leaderCommit

variable {sm : StateMachine C S} {s : Cluster n C S}

theorem sent_vouched {g : History n C} (hi : Inv sm s g) {r : Rpc n C S} (hr : r ∈ s.rpcs)
    {args : AppendEntriesArgs n C} {reply : Option AppendEntriesReply}
    (hc : r.call = .appendEntries args reply) : args.leaderCommit ≤ covered args := by
  have hcall := (hi.rpcs r hr).2
  unfold CallInv at hcall
  rw [hc] at hcall
  obtain ⟨_, _, _, _, _, hcommit, _⟩ := hcall
  exact hcommit

theorem commits_vouched {tr : List (Transition (Cluster n C S) (Label n C))}
    (run : Run (cluster n sm) tr s) : Vouched tr s := by
  obtain ⟨g, _, moment⟩ := RaftSafety.visits_inv run
  have hsent : ∀ x, Visits tr s x → ∀ r ∈ x.rpcs, ∀ args reply,
      r.call = .appendEntries args reply → args.leaderCommit ≤ covered args := by
    intro x hx r hr args reply hc
    obtain ⟨gx, hi, _⟩ := moment x hx
    exact sent_vouched hi hr hc
  refine ⟨hsent, ?_⟩
  intro t ht v args hacc
  obtain ⟨k, epoch, caller, reply, label, answered, _⟩ := hacc
  have hstep : t.pre.exec sm t.label = some t.post := (run.visited ht).2.1
  rw [label] at hstep
  have hargs := hsent t.post (run.visits_post ht) _ (List.mem_of_getElem? answered) args _ rfl
  cases handle_handled hstep answered with
  | appendEntries _ _ happ =>
    rcases appendEntries_commit happ with hsame | hle
    · exact .inl hsame
    · exact .inr (hle.trans hargs)

theorem commits_vouched_heartbeat : ∃ r, RaftSafety.sample = some r ∧
    (∃ t ∈ r.1, (t.pre.procs 1).rf.commitIndex = 0 ∧ (t.post.procs 1).rf.commitIndex = 1) ∧
    Vouched r.1 r.2 := by
  have hsome : RaftSafety.sample.map (fun r => decide
      (∃ t ∈ r.1, (t.pre.procs 1).rf.commitIndex = 0 ∧ (t.post.procs 1).rf.commitIndex = 1)) =
      some true := by decide +kernel
  obtain ⟨r, hr, hd⟩ := Option.map_eq_some_iff.mp hsome
  exact ⟨r, hr, of_decide_eq_true hd, commits_vouched (RaftSafety.sample_run hr)⟩

end DistributedLabs.RaftVouched
