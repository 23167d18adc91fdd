import DistributedLabs.RaftInvariant

set_option autoImplicit false

/-! The remaining steps, and the invariant of every run with the history that `observe` keeps. -/
namespace DistributedLabs.RaftHistory
open RaftModel RaftCluster RaftShape TermLedger Runs

variable {n : ℕ} {C S : Type} {sm : StateMachine C S} {g h : History n C} {s u : Cluster n C S}

section local_steps
variable {p : Fin n}

theorem inv_start (hi : Inv sm s g) (command : Option C) :
    Refines sm g (s.setRaft p ((s.procs p).rf.start command).1)
      (observe g s (.start p command) (s.setRaft p ((s.procs p).rf.start command).1)) := by
  have hraft := (hi.procs p).raft
  change Refines sm g _ (if (s.procs p).rf.state = .leader then _ else g)
  by_cases hs : (s.procs p).rf.state = .leader
  · rw [if_pos hs]
    refine hi.set_raft (start_outcome hi.valid hraft hs command) ?_ (fun _ hr => .inl hr)
    obtain ⟨ld, hl, _⟩ := hraft.leads hs
    intro v t c l hv
    rw [extend_vote hl] at hv
    exact .inl hv
  · rw [if_neg hs, start_follower hs]
    exact hi.set_raft (Outcome.refl hraft) (fun _ _ _ _ hv => .inl hv) (fun _ hr => .inl hr)

theorem inv_snapshot (hi : Inv sm s g) {i : ℕ} {st : S} {rf' : Raft n C S}
    (hst : (i, st) ∈ (s.procs p).states) (h : (s.procs p).rf.takeSnapshot i st = some rf') :
    Refines sm g (s.setRaft p rf') g :=
  hi.set_raft (takeSnapshot_outcome hi.valid (hi.procs p).raft ((hi.procs p).states _ hst) h)
    (fun _ _ _ _ hv => .inl hv) (fun _ hr => .inl hr)

theorem inv_tick (hi : Inv sm s g) :
    Refines sm g (s.setProc p { s.procs p with shouldStart := true }) g :=
  hi.move .refl (fun q _ => Untouched.refl g q) (fun _ hm => hm) { hi.procs p with }
    { Progress.refl g p (s.procs p) with } (fun _ _ _ _ hv => .inl hv) (fun _ hr => .inl hr)
    (fun _ hz => .inl hz)

theorem inv_startElection (hi : Inv sm s g) :
    Refines sm g (s.setProc p { s.procs p with
        rf := (s.procs p).rf.startElection
        shouldStart := false
        votes := Function.update (s.procs p).votes ((s.procs p).rf.currentTerm + 1) 1
        poll := Function.update (s.procs p).poll ((s.procs p).rf.currentTerm + 1)
          (fun i => if i = p then .idle else .spawned) })
      ((g.advance p ((s.procs p).rf.currentTerm + 1)).castVote p
        ((s.procs p).rf.currentTerm + 1) p) := by
  have hproc := hi.procs p
  have hraft := hproc.raft.startElection hi.valid
  have hle : g.term p ≤ (s.procs p).rf.currentTerm + 1 := by
    rw [hproc.raft.term]
    exact Nat.le_succ _
  have hacts : Relation.ReflTransGen (Act LogEntry.term (Majority.quorums n)) g
      ((g.advance p ((s.procs p).rf.currentTerm + 1)).castVote p
        ((s.procs p).rf.currentTerm + 1) p) :=
    .head (.advance p _ hle) (.single (.castVote p _ p (by simp [Ledger.advance])))
  have hg := (acts_valid hacts hi.valid).2
  refine hi.move hacts ?_ (fun _ hm => hm) ?_ ?_ ?_ (fun _ hr => .inl hr) (fun _ hz => .inl hz)
  · exact fun q hq => (untouched_advance hq _).trans (untouched_castVote hq _ _)
  · refine ⟨hraft, ?_, ?_, hproc.stream, fun y hy => (hproc.states y hy).mono hg (fun _ hm => hm),
      fun m hm => (hproc.msgs m hm).mono hg (fun _ hm => hm), hproc.sent⟩
    · intro t
      by_cases ht : t = (s.procs p).rf.currentTerm + 1
      · simp [ht]
      · simp [ht, hproc.pollSelf]
    · intro _
      refine ⟨{p}, ?_, ?_⟩
      · change Function.update (s.procs p).votes _ 1 ((s.procs p).rf.currentTerm + 1) ≤ _
        simp
      · intro v hv
        obtain rfl : v = p := by simpa using hv
        refine ⟨.inl rfl, hraft.voter v ?_⟩
        change some (s.procs v).rf.me = some v
        rw [hproc.raft.me]
  · refine ⟨le_refl _, Nat.le_succ _, ?_, fun _ => le_refl _⟩
    intro _ ht
    change (s.procs p).rf.currentTerm + 1 = (s.procs p).rf.currentTerm at ht
    omega
  · intro v t c l hv
    rcases castVote_vote hv with hold | ⟨rfl, rfl, hx⟩
    · exact .inl hold
    · cases hx
      right
      rw [Function.update_self]
      refine ⟨le_refl _, ?_⟩
      intro _ _
      rw [(castVote_frame _ _ _ _).2.1]
      exact .inr ⟨rfl, le_refl _⟩

theorem inv_rpcs (hi : Inv sm s g) {rs : List (Rpc n C S)}
    (hr : ∀ r ∈ rs, r ∈ s.rpcs ∨ RpcInv sm g s.delivered s.procs r) :
    Refines sm g { s with rpcs := rs } g :=
  ⟨{ hi with rpcs := fun r hmem => (hr r hmem).elim (hi.rpcs r) id }, .refl⟩

theorem inv_poll (hi : Inv sm s g) {t : ℕ} {peer : Fin n} {stage : Poll}
    {rs : List (Rpc n C S)} (hpoll : (s.procs p).poll t peer = .spawned)
    (hr : ∀ r ∈ rs, r ∈ s.rpcs ∨ RpcInv sm g s.delivered s.procs r) :
    Refines sm g { s.setProc p { s.procs p with
      poll := Function.update (s.procs p).poll t
        (Function.update ((s.procs p).poll t) peer stage) } with rpcs := rs } g := by
  have hproc := hi.procs p
  have hne : p ≠ peer := by
    rintro rfl
    rw [hproc.pollSelf] at hpoll
    cases hpoll
  have keep : ∀ u v, ¬ (u = t ∧ v = peer) →
      Function.update (s.procs p).poll t (Function.update ((s.procs p).poll t) peer stage) u v =
        (s.procs p).poll u v := by
    intro u v hn
    by_cases hu : u = t
    · subst hu
      have hv : v ≠ peer := fun hv => hn ⟨rfl, hv⟩
      simp [hv]
    · simp [hu]
  have hprog : Progress g g p (s.procs p) { s.procs p with
      poll := Function.update (s.procs p).poll t
        (Function.update ((s.procs p).poll t) peer stage) } := { Progress.refl g p (s.procs p) with }
  refine hi.move .refl (fun q _ => Untouched.refl g q) (fun _ hm => hm) ?_ hprog
    (fun _ _ _ _ hv => .inl hv) ?_ (fun _ hz => .inl hz)
  · refine { hproc with pollSelf := ?_, tally := ?_ }
    · intro u
      dsimp only
      rw [keep u p (fun hc => hne hc.2)]
      exact hproc.pollSelf u
    · intro hs
      obtain ⟨A, hA, hall⟩ := hproc.tally hs
      refine ⟨A, hA, ?_⟩
      intro v hv
      obtain ⟨hw, hvote⟩ := hall v hv
      refine ⟨hw.imp_right fun hfin => ?_, hvote⟩
      dsimp only
      rw [keep _ v]
      · exact hfin
      · rintro ⟨hu, rfl⟩
        rw [hu, hpoll] at hfin
        cases hfin
  · intro r hmem
    rcases hr r hmem with hold | hnew
    · exact .inl hold
    · exact .inr (hnew.mono (Grows.refl g) (fun _ hm => hm)
        (progress_update (fun q _ => Untouched.refl g q) hprog r.caller))

theorem voteRequest_cases {rf : Raft n C S} {t : ℕ} {args : RequestVoteArgs n}
    (h : rf.voteRequest t = some (some args)) : rf.currentTerm = t ∧ rf.state = .candidate ∧
      ∃ last, rf.entryAt rf.lastLogIndex = some last ∧
        args = ⟨t, rf.me, rf.lastLogIndex, last.term⟩ := by
  unfold Raft.voteRequest at h
  split_ifs at h with hskip
  · cases h
  · obtain ⟨last, hlast, h⟩ := Option.bind_eq_some_iff.mp h
    cases h
    exact ⟨by tauto, by tauto, last, hlast, rfl⟩

theorem inv_sendRequestVote (hi : Inv sm s g) {t : ℕ} {peer : Fin n}
    (h : s.sendRequestVote p t peer = some u) : Refines sm g u g := by
  have hraft := (hi.procs p).raft
  unfold Cluster.sendRequestVote at h
  dsimp only at h
  split_ifs at h with hpoll
  have hpoll' : (s.procs p).poll t peer = .spawned := by simpa using hpoll
  obtain ⟨request, hreq, h⟩ := Option.bind_eq_some_iff.mp h
  cases request with
  | none =>
    cases h
    exact inv_poll hi hpoll' (fun _ hr => .inl hr)
  | some args =>
    cases h
    obtain ⟨hct, hs, last, hlast, rfl⟩ := voteRequest_cases hreq
    refine inv_poll hi hpoll' ?_
    intro r hr
    rcases List.mem_cons.mp hr with rfl | hr
    · right
      have hterm := (hraft.shape.of_entryAt hlast).2.2
      rw [hraft.shape.lastLogIndex, ← lastRank_eq_termAt] at hterm
      refine ⟨le_refl _, hraft.me, hct.ge, ?_, fun _ hrep => by cases hrep⟩
      exact fun _ _ => ⟨hraft.shape.lastLogIndex, hterm⟩
    · exact .inl hr

/-- What a leader sends is a stretch of its log, or the snapshot of its compacted part. -/
theorem replicateOnce_call (hi : Inv sm s g) {peer : Fin n} (hne : peer ≠ p)
    {request : Replication n C S}
    (h : (s.procs p).rf.replicateOnce peer = some (some request)) :
    RpcInv sm g s.delivered s.procs ⟨p, (s.procs p).epoch, peer, match request with
      | .append args => .appendEntries args none
      | .snapshot args => .installSnapshot args none⟩ := by
  have hraft := (hi.procs p).raft
  have hcommit := hraft.commit_le
  have hbase := hraft.base_le
  unfold Raft.replicateOnce at h
  by_cases hs : (s.procs p).rf.state = .leader
  · rw [if_neg (by simpa using hs)] at h
    obtain ⟨ld, hl, hw, hlog⟩ := hraft.leader_log hi.valid hs
    have hf : FromLeader g (s.procs p).rf.currentTerm p peer ld := ⟨hl, hw, hne.symm⟩
    rw [hlog] at hcommit
    by_cases hsnap : (s.procs p).rf.nextIndex peer ≤ (s.procs p).rf.lastIncludedIndex
    · rw [if_pos hsnap] at h
      cases h
      refine ⟨le_refl _, ld, hf, hbase.trans hcommit, ?_, ?_, ?_, hraft.reached, fun _ => hbase⟩
      · rw [← hlog]; exact hraft.shape.baseTerm
      · rw [← hlog]; exact hraft.snapshot
      · rw [← hlog]
        apply hraft.committed.restrict
        rw [← Nat.min_eq_left hbase, ← List.take_take]
        exact List.take_prefix _ _
    · rw [if_neg hsnap] at h
      dsimp only at h
      split_ifs at h with hahead
      · cases h
      · rw [hraft.shape.lastLogIndex, hlog] at hahead
        obtain ⟨entries, hentries, h⟩ := Option.bind_eq_some_iff.mp h
        rw [hraft.shape.entriesAfter (by omega), hlog] at hentries
        cases hentries
        obtain ⟨prev, hprev, h⟩ := Option.bind_eq_some_iff.mp h
        cases h
        have hterm := (hraft.shape.of_entryAt hprev).2.2
        rw [hlog] at hterm
        have hlen : (s.procs p).rf.nextIndex peer - 1 +
            (ld.log.drop ((s.procs p).rf.nextIndex peer - 1)).length = ld.log.length := by
          rw [List.length_drop]
          omega
        refine ⟨le_refl _, ld, hf, hlen.le, ?_, hterm, hcommit.trans hlen.ge, ?_,
          fun _ hrep => by cases hrep⟩
        · dsimp only
          rw [hlen, List.take_length]
        · have hc := hraft.committed
          rw [hlog] at hc
          exact hc
  · rw [if_pos hs] at h
    cases h

theorem inv_replicateOnce (hi : Inv sm s g) {peer : Fin n}
    (h : s.replicateOnce p peer = some u) : Refines sm g u g := by
  unfold Cluster.replicateOnce at h
  split_ifs at h with hne
  obtain ⟨request, hreq, h⟩ := Option.bind_eq_some_iff.mp h
  cases request with
  | none =>
    cases h
    exact ⟨hi, .refl⟩
  | some request =>
    have hcall := replicateOnce_call hi hne hreq
    cases request with
    | append args =>
      cases h
      exact inv_rpcs hi fun r hr => (List.mem_cons.mp hr).elim (fun he => .inr (he ▸ hcall)) .inl
    | snapshot args =>
      cases h
      exact inv_rpcs hi fun r hr => (List.mem_cons.mp hr).elim (fun he => .inr (he ▸ hcall)) .inl

end local_steps

section service_steps
variable {p : Fin n}

theorem inv_applier (hi : Inv sm s g) {rf' : Raft n C S} {msg : ApplyMsg C S}
    (hidle : (s.procs p).sending = none) (hready : (s.procs p).rf.applierReady = true)
    (h : (s.procs p).rf.applier = some (rf', msg)) :
    Refines sm g (s.setProc p { s.procs p with rf := rf', sending := some msg }) g := by
  have hproc := hi.procs p
  obtain ⟨hraft, hmsg, hstep, hct, hst, hci⟩ := applier_step hproc.raft hready h
  refine hi.move .refl (fun q _ => Untouched.refl g q) (fun _ hm => hm) ?_ ?_
    (fun _ _ _ _ hv => .inl hv) (fun _ hr => .inl hr) (fun _ hz => .inl hz)
  · refine ⟨hraft, hproc.pollSelf, ?_, ?_, hproc.states, ?_, hproc.sent⟩
    · dsimp only
      rw [hct, hst]
      exact hproc.tally
    · obtain ⟨i, st, rest, hstates, hstream⟩ := hproc.stream
      rw [hidle, Option.toList_none, List.append_nil] at hstream
      exact ⟨i, st, rest, hstates, hstream.append hstep⟩
    · intro m hm
      rcases List.mem_append.mp hm with hm | hm
      · exact hproc.msgs m (List.mem_append_left _ hm)
      · rw [Option.mem_toList] at hm
        cases hm
        exact hmsg
  · exact ⟨le_refl _, hct.ge, fun hc _ => ⟨hst ▸ hc, rfl⟩, fun _ => hci.ge⟩

theorem inv_send (hi : Inv sm s g) {msg : ApplyMsg C S} (hmsg : (s.procs p).sending = some msg) :
    Refines sm g { s.setProc p { s.procs p with
        sending := none
        applyCh := (s.procs p).applyCh ++ [msg] } with
      delivered := ⟨p, (s.procs p).epoch, msg⟩ :: s.delivered } g := by
  have hproc := hi.procs p
  have hd : s.delivered ⊆ ⟨p, (s.procs p).epoch, msg⟩ :: s.delivered := List.subset_cons_self _ _
  have hg := Grows.refl g
  have hmem : msg ∈ (s.procs p).applyCh ++ (s.procs p).sending.toList := by simp [hmsg]
  have hsame : (s.procs p).applyCh ++ [msg] ++ (none : Option (ApplyMsg C S)).toList =
      (s.procs p).applyCh ++ (s.procs p).sending.toList := by
    simp [hmsg]
  refine hi.move .refl (fun q _ => Untouched.refl g q) hd ?_ { Progress.refl g p (s.procs p) with }
    (fun _ _ _ _ hv => .inl hv) (fun _ hr => .inl hr) ?_
  · refine ⟨hproc.raft.mono hg (Untouched.refl g p) hd, hproc.pollSelf, hproc.tally, ?_,
      fun y hy => (hproc.states y hy).mono hg hd, ?_, ?_⟩
    · dsimp only
      rw [hsame]
      exact hproc.stream
    · dsimp only
      rw [hsame]
      exact fun m hm => (hproc.msgs m hm).mono hg hd
    · intro m hm
      rcases List.mem_append.mp hm with hm | hm
      · obtain ⟨y, hy, heq⟩ := hproc.sent m hm
        exact ⟨y, hd hy, heq⟩
      · rw [List.mem_singleton] at hm
        exact ⟨_, List.mem_cons_self, hm.symm⟩
  · intro z hz
    rcases List.mem_cons.mp hz with rfl | hz
    · exact .inr ((hproc.msgs msg hmem).mono hg hd)
    · exact .inl hz

theorem StateInv.next {d : List (Delivery n C S)} {i : ℕ} {st : S} {c : Option C}
    (hv : Valid LogEntry.term (Majority.quorums n) g) (hst : StateInv sm g d (i, st))
    (hmsg : MsgInv sm g d (.command c (i + 1))) (hsent : ∃ y ∈ d, y.msg = .command c (i + 1)) :
    StateInv sm g d (i + 1, sm.apply st c) := by
  obtain ⟨hreach, l, ⟨t, hl⟩, hlen, rfl⟩ := hst
  obtain ⟨_, m, e, ⟨u, hm⟩, he, rfl⟩ := hmsg
  rw [Nat.add_sub_cancel] at he
  have hlt : i < m.length := (List.getElem?_eq_some_iff.mp he).choose
  have hsame : l = m.take i := by
    refine hl.eq_of_length hv (hm.restrict (m := m.take i) ⟨_, List.take_append_drop _ _⟩) ?_
    dsimp only at hlen
    rw [List.length_take]
    omega
  refine ⟨?_, m.take (i + 1), ⟨u, hm.restrict ⟨_, List.take_append_drop _ _⟩⟩, ?_, ?_⟩
  · intro j hj hle
    rcases hle.lt_or_eq with hlt | rfl
    · exact hreach j hj (by dsimp only at hlt ⊢; omega)
    · obtain ⟨y, hy, heq⟩ := hsent
      exact ⟨y, hy, _, heq⟩
  · rw [List.length_take]
    dsimp only
    omega
  · dsimp only
    rw [List.take_add_one, he, hsame]
    simp [stateAfter]

theorem inv_receive (hi : Inv sm s g) (h : s.receive sm p = some u) : Refines sm g u g := by
  have hproc := hi.procs p
  obtain ⟨i, st, rest, hstates, hstream⟩ := hproc.stream
  -- the service has one new state, at the index of the message it took
  have take : ∀ m ms y, (s.procs p).applyCh = m :: ms → StateInv sm g s.delivered y →
      Stream y.1 (ms ++ (s.procs p).sending.toList) (s.procs p).rf.lastApplied →
      Refines sm g (s.setProc p { s.procs p with
        applyCh := ms
        states := y :: (s.procs p).states }) g := by
    intro m ms y hch hy hrest
    have hsub : ∀ x, x ∈ ms → x ∈ (s.procs p).applyCh := by
      intro x hx
      rw [hch]
      exact List.mem_cons_of_mem _ hx
    refine hi.move .refl (fun q _ => Untouched.refl g q) (fun _ hm => hm) ?_
      { Progress.refl g p (s.procs p) with } (fun _ _ _ _ hv => .inl hv) (fun _ hr => .inl hr)
      (fun _ hz => .inl hz)
    refine { hproc with stream := ⟨y.1, y.2, _, rfl, hrest⟩, states := ?_, msgs := ?_, sent := ?_ }
    · intro z hz
      rcases List.mem_cons.mp hz with rfl | hz
      · exact hy
      · exact hproc.states z hz
    · intro x hx
      apply hproc.msgs x
      rcases List.mem_append.mp hx with hx | hx
      · exact List.mem_append_left _ (hsub x hx)
      · exact List.mem_append_right _ hx
    · exact fun x hx => hproc.sent x (hsub x hx)
  unfold Cluster.receive at h
  dsimp only at h
  rw [hstates] at h
  cases hch : (s.procs p).applyCh with
  | nil =>
    rw [hch] at h
    cases h
  | cons m ms =>
    have hin : m ∈ (s.procs p).applyCh := by simp [hch]
    have hmsg := hproc.msgs m (List.mem_append_left _ hin)
    have hsent := hproc.sent m hin
    rw [hch] at h hstream
    cases m with
    | command c k =>
      obtain ⟨rfl, hrest⟩ := hstream
      cases h
      rw [← hstates]
      exact take _ ms _ hch
        ((hproc.states _ (by simp [hstates])).next hi.valid hmsg hsent) hrest
    | snapshot data t k =>
      cases h
      rw [← hstates]
      obtain ⟨_, hreach, l, hdec, hlen, rfl⟩ := hmsg
      exact take _ ms _ hch ⟨hreach, l, hdec, hlen, rfl⟩ hstream.2

theorem boot_inv {d : List (Delivery n C S)} {rf : Raft n C S} (hi : RaftInv sm g d p rf)
    (epoch : ℕ) : ProcInv sm g d p (boot sm p epoch rf.persister) := by
  have hmake := hi.make
  obtain ⟨_, _, hst, hci, hla, _⟩ := make_frame p rf.persister
  refine ⟨hmake, fun _ => rfl, ?_, ⟨_, _, [], rfl, hla.symm⟩, ?_, fun _ hm => (by cases hm),
    fun _ hm => (by cases hm)⟩
  · intro hs
    change (Raft.make p rf.persister).state = _ at hs
    rw [hst] at hs
    cases hs
  · intro y hy
    obtain rfl := List.mem_singleton.mp hy
    refine ⟨hmake.reached, _, hmake.decided hmake.base_le, ?_, ?_⟩
    · rw [List.length_take]
      exact Nat.min_eq_left hmake.shape.base
    · change (Raft.make p rf.persister).snapshot.getD sm.initial = _
      rw [hmake.snapshot, image_getD]

theorem inv_restart (hi : Inv sm s g) :
    Refines sm g (s.setProc p (boot sm p ((s.procs p).epoch + 1) (s.procs p).rf.persister)) g := by
  have hraft := (hi.procs p).raft
  obtain ⟨_, _, hst, _⟩ := make_frame p (s.procs p).rf.persister
  refine hi.move .refl (fun q _ => Untouched.refl g q) (fun _ hm => hm) (boot_inv hraft _) ?_
    (fun _ _ _ _ hv => .inl hv) (fun _ hr => .inl hr) (fun _ hz => .inl hz)
  refine ⟨Nat.le_succ _, ?_, ?_, ?_⟩
  · have := hraft.durable.currentTerm
    rw [hraft.me] at this
    exact this.ge
  · intro hc
    change (Raft.make p (s.procs p).rf.persister).state = _ at hc
    rw [hst] at hc
    cases hc
  · intro he
    change (s.procs p).epoch + 1 = (s.procs p).epoch at he
    omega

theorem raft_init (p : Fin n) : RaftInv sm (empty : History n C) [] p (Raft.make p ⟨none, none⟩) := by
  refine { me := rfl, term := rfl, shape := ⟨le_refl _, rfl, rfl⟩,
           durable := ⟨rfl, rfl, rfl, rfl, rfl, rfl⟩, voted := ?_, voter := ?_, leads := ?_, led := ?_,
           base_le := le_refl _, commit_le := le_refl _, committed := .inl rfl,
           applied_le := le_refl _, pending := ?_, current := fun _ => le_refl _, snapshot := rfl,
           reached := ?_, acked := ?_ }
  · intro c l hv
    cases hv
  · intro c hv
    cases hv
  · intro hs
    cases hs
  · intro ld hl
    cases hl
  · intro hp
    cases hp
  · intro j hj hle
    exact absurd hle (by change ¬ j ≤ 0; omega)
  · intro hs
    cases hs

theorem inv_initial : Inv sm (initial sm : Cluster n C S) empty := by
  refine ⟨valid_empty, fun p => boot_inv (raft_init p) 0, ?_, ?_, ?_, ?_⟩
  · intro v t c l hv
    cases hv
  · intro v c l hv
    cases hv
  · intro r hr
    cases hr
  · intro x hx
    cases hx

end service_steps

/-- Every step of the cluster, seen through its history, is a step of the abstract protocol. -/
theorem exec_refines (hi : Inv sm s g) {l : Label n C} (h : s.exec sm l = some u) :
    Refines sm g u (observe g s l u) := by
  cases l with
  | tick p =>
    dsimp only [Cluster.exec] at h
    split_ifs at h
    cases h
    exact inv_tick hi
  | startElection p =>
    dsimp only [Cluster.exec] at h
    split_ifs at h
    cases h
    have hterm : ((Function.update s.procs p { s.procs p with
        rf := (s.procs p).rf.startElection
        shouldStart := false
        votes := Function.update (s.procs p).votes (s.procs p).rf.startElection.currentTerm 1
        poll := Function.update (s.procs p).poll (s.procs p).rf.startElection.currentTerm
          (fun i => if i = p then .idle else .spawned) }) p).rf.currentTerm =
        (s.procs p).rf.currentTerm + 1 := by
      rw [Function.update_self]
      rfl
    unfold observe
    dsimp only [Cluster.setProc]
    rw [hterm]
    exact inv_startElection hi
  | sendRequestVote p t peer => exact inv_sendRequestVote hi h
  | replicateOnce p peer => exact inv_replicateOnce hi h
  | handle k => exact inv_handle hi h
  | reply k => exact inv_reply hi h
  | lose k =>
    dsimp only [Cluster.exec] at h
    split_ifs at h
    cases h
    exact inv_rpcs hi fun _ hr => .inl (List.mem_of_mem_eraseIdx hr)
  | start p command =>
    cases h
    exact inv_start hi command
  | snapshot p k =>
    obtain ⟨⟨i, st⟩, hst, h⟩ := Option.bind_eq_some_iff.mp h
    obtain ⟨rf', hrf, h⟩ := Option.bind_eq_some_iff.mp h
    cases h
    exact inv_snapshot hi (List.mem_of_getElem? hst) hrf
  | applier p =>
    dsimp only [Cluster.exec] at h
    split_ifs at h with hwait
    obtain ⟨⟨rf', msg⟩, hrf, h⟩ := Option.bind_eq_some_iff.mp h
    cases h
    have hgo : (s.procs p).sending = none ∧ (s.procs p).rf.applierReady = true := by
      simpa using hwait
    exact inv_applier hi hgo.1 hgo.2 hrf
  | send p =>
    obtain ⟨msg, hmsg, h⟩ := Option.bind_eq_some_iff.mp h
    cases h
    exact inv_send hi hmsg
  | receive p => exact inv_receive hi h
  | restart p =>
    cases h
    exact inv_restart hi

noncomputable def recorded (n : ℕ) (sm : StateMachine C S) :
    Machine (Cluster n C S × History n C) (Label n C) :=
  (cluster n sm).withHistory empty observe

theorem recorded_step {w w' : Cluster n C S × History n C} {l : Label n C} (hi : Inv sm w.1 w.2)
    (h : (recorded n sm).step w l w') : Refines sm w.2 w'.1 w'.2 := by
  obtain ⟨h, hobs⟩ := h
  rw [hobs]
  exact exec_refines hi h

theorem recorded_inv {tr : List (Transition (Cluster n C S × History n C) (Label n C))}
    {w : Cluster n C S × History n C} (run : Run (recorded n sm) tr w) : Inv sm w.1 w.2 := by
  refine run.invariant (I := fun w => Inv sm w.1 w.2) ?_ ?_
  · rintro ⟨s, g⟩ ⟨hs, hg⟩
    dsimp only at hs hg ⊢
    rw [hs, hg]
    exact inv_initial
  · exact fun _ _ _ hi h => (recorded_step hi h).inv

/-- Between two moments of a run the history only grows. -/
theorem recorded_grows {w w' : Cluster n C S × History n C} (h : Reaches (recorded n sm) w w')
    (hi : Inv sm w.1 w.2) : Grows w.2 w'.2 ∧ Inv sm w'.1 w'.2 := by
  refine h.respects (R := fun w w' => Grows w.2 w'.2) (I := fun w => Inv sm w.1 w.2)
    (fun w => Grows.refl w.2) (fun _ _ _ => Grows.trans) ?_ ?_ hi
  · exact fun _ _ _ hi h => (recorded_step hi h).inv
  · exact fun _ _ _ hi h => (acts_valid (recorded_step hi h).acts hi.valid).2

/-- The history of a reachable state grows along whatever happens next. -/
theorem reaches_inv {s u : Cluster n C S} {g : History n C} (h : Reaches (cluster n sm) s u)
    (hi : Inv sm s g) : ∃ g', Inv sm u g' ∧ Grows g g' := by
  induction h with
  | refl => exact ⟨g, hi, Grows.refl g⟩
  | next _ h ih =>
    obtain ⟨g', hi', hg⟩ := ih
    have href := exec_refines hi' h
    exact ⟨_, href.inv, hg.trans (acts_valid href.acts hi'.valid).2⟩

theorem reaches_term {s u : Cluster n C S} {g : History n C} (h : Reaches (cluster n sm) s u)
    (hi : Inv sm s g) (q : Fin n) : (s.procs q).rf.currentTerm ≤ (u.procs q).rf.currentTerm := by
  obtain ⟨g', hi', hg⟩ := reaches_inv h hi
  rw [← (hi.procs q).raft.term, ← (hi'.procs q).raft.term]
  exact hg.term q

end DistributedLabs.RaftHistory
