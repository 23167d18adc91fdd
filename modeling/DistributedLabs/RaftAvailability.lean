import DistributedLabs.CommitRule
import DistributedLabs.RaftElection
import DistributedLabs.RaftMerge
import DistributedLabs.RaftProvenance

set_option autoImplicit false

/-!
# A majority is enough to get a command delivered

From every reachable state the peers of a majority can elect a leader, pass it a command
and bring it to the services of all of them, on their own. A follower that a leader of
long standing cannot reach any more is in reach of a new one. The only exception is a
cluster of a single peer, which waits for a vote that nobody can give.
-/
namespace DistributedLabs.RaftAvailability
open RaftModel RaftCluster RaftShape RaftHistory RaftBounds RaftNextIndex RaftBacktrack
  RaftElection TermLedger Runs

variable {n : ℕ} {C S : Type} {sm : StateMachine C S} {s u : Cluster n C S} {A : Finset (Fin n)}
  {tr : List (Transition (Cluster n C S) (Label n C))}

section rounds
variable {l f l' f' : Raft n C S} {p : Fin n} {accepted : Bool}

structure Led (l l' : Raft n C S) (p : Fin n) : Prop where
  log : SameLog l l'
  applied : l'.lastApplied = l.lastApplied
  commit : l.commitIndex ≤ l'.commitIndex
  next : ∀ q, q ≠ p → l'.nextIndex q = l.nextIndex q
  known : ∀ q, l.matchIndex q ≤ l'.matchIndex q

theorem Led.refl (l : Raft n C S) (p : Fin n) : Led l l p :=
  ⟨SameLog.refl l, rfl, le_refl _, fun _ _ => rfl, fun _ => le_refl _⟩

theorem led_confirmed (l : Raft n C S) (p : Fin n) (k : ℕ) : Led l (confirmed l p k) p := by
  refine ⟨⟨rfl, rfl⟩, rfl, le_refl _, fun q hq => ?_, fun q => ?_⟩
  · dsimp only [confirmed]
    rw [raise_apply, if_neg hq]
  · dsimp only [confirmed]
    rw [raise_apply]
    split_ifs <;> omega

theorem Led.advance (h : Led l l' p) {l'' : Raft n C S} (ha : l'.advanceCommitIndex = some l'') :
    Led l l'' p := by
  have hkeep := advanceCommitIndex_keeps ha
  have hcommit : l'.commitIndex ≤ l''.commitIndex := by
    rcases advanceCommitIndex_cases ha with rfl | ⟨N, e, _, _, hlt, _, _, _, rfl⟩
    · exact le_refl _
    · exact hlt.le
  rw [hkeep]
  exact ⟨⟨h.log.log, h.log.base⟩, h.applied, h.commit.trans hcommit, h.next, h.known⟩

theorem exchange_led (h : Exchange l f p l' f' accepted) (hk : Kept l l' f') : Led l l' p := by
  cases h with
  | append args reply sent answer done =>
    rcases appendReply_cases done with ⟨rfl, _⟩ | rfl | ⟨_, rfl | ⟨hint, _, rfl⟩⟩ | ⟨_, _, _, hadv⟩
    · exact Led.refl _ p
    · cases hk.leads
    · exact Led.refl _ p
    · exact ⟨⟨rfl, rfl⟩, rfl, le_refl _, fun q hq => Function.update_of_ne hq _ _,
        fun _ => le_refl _⟩
    · exact (led_confirmed l p _).advance hadv
  | snapshot args reply sent answer done =>
    rcases snapshotReply_cases l p args reply with heq | heq | ⟨_, _, heq⟩
    · rw [done, heq]
      exact Led.refl l p
    · rw [done, heq] at hk
      cases hk.leads
    · rw [done, heq]
      exact led_confirmed l p args.lastIncludedIndex

theorem length_overlay {E : Type} (rank : E → ℕ) (l m : List E) :
    m.length ≤ (overlay rank l m).length := by
  induction m generalizing l with
  | nil => simp
  | cons b m ih =>
    cases l with
    | nil => simp [nil_overlay]
    | cons a l =>
      unfold overlay
      split_ifs
      · simpa using ih l
      · simp

theorem accepted_last {rf : Raft n C S} {args : AppendEntriesArgs n C} (h : RaftMerge.Fits rf args) :
    args.prevLogIndex + args.entries.length ≤ (RaftMerge.merged rf args).lastLogIndex := by
  have hlen := RaftMerge.length_take_kept h
  have hover := length_overlay LogEntry.term (rf.log.drop (RaftMerge.kept rf args)) args.entries
  have hlow := h.low
  have hkept : RaftMerge.kept rf args = args.prevLogIndex - rf.lastIncludedIndex + 1 := rfl
  rw [Raft.lastLogIndex, RaftMerge.merged_log, RaftMerge.merged_base, RaftMerge.mergedLog,
    List.length_append, hlen]
  omega

theorem exchange_told {X Y : List (LogEntry C)} (hlink : Link X Y l f p)
    (hcommit : l.commitIndex ≤ X.length) (h : Exchange l f p l' f' true) :
    l.commitIndex ≤ f'.commitIndex := by
  generalize hacc : true = acc at h
  cases h with
  | snapshot => cases hacc
  | append args reply sent answer done =>
    have hfits := RaftMerge.fits_of_success answer hacc.symm
    rw [RaftMerge.appendEntries_fits hfits] at answer
    cases answer
    have hlast := accepted_last hfits
    rcases replicateOnce_cases sent with hmsg | ⟨entries, prev, hentries, hprev, hmsg⟩
    · cases hmsg
    cases hmsg
    have hbounds := hlink.lead.of_entryAt hprev
    rw [hlink.lead.entriesAfter hbounds.1] at hentries
    cases hentries
    rw [RaftMerge.followCommit_commit]
    simp only [List.length_drop] at hlast
    split_ifs with hlt
    · exact le_min (le_refl _) (by omega)
    · exact not_lt.mp hlt

theorem exchange_next {X Y : List (LogEntry C)} (hlink : Link X Y l f p) (hk : Kept l l' f')
    (h : Exchange l f p l' f' true) : X.length < l'.nextIndex p := by
  generalize hacc : true = acc at h
  cases h with
  | snapshot => cases hacc
  | append args reply sent answer done =>
    rcases replicateOnce_cases sent with hmsg | ⟨entries, prev, hentries, hprev, hmsg⟩
    · cases hmsg
    cases hmsg
    have hbounds := hlink.lead.of_entryAt hprev
    rw [hlink.lead.entriesAfter hbounds.1] at hentries
    cases hentries
    rcases appendReply_cases done with ⟨_, hold⟩ | rfl | ⟨hno, _⟩ | ⟨_, _, _, hadv⟩
    · simp [hlink.leads] at hold
    · cases hk.leads
    · rw [← hacc] at hno
      cases hno
    · rw [advanceCommitIndex_keeps hadv]
      dsimp only [confirmed]
      rw [raise_apply, if_pos rfl, List.length_drop]
      omega

theorem exchange_commits (hlead : l.state = .leader) (hk : Kept l l' f')
    (hmatch : ∀ q, l'.matchIndex q ≤ l.lastLogIndex)
    (hentry : ∃ e, l.entryAt l.lastLogIndex = some e ∧ e.term = l.currentTerm)
    (h : Exchange l f p l' f' true)
    (hmany : n ≤ 2 * Majority.holders l'.matchIndex l.lastLogIndex) :
    l.lastLogIndex ≤ l'.commitIndex := by
  generalize hacc : true = acc at h
  cases h with
  | snapshot => cases hacc
  | append args reply sent answer done =>
    rcases appendReply_cases done with ⟨_, hold⟩ | rfl | ⟨hno, _⟩ | ⟨_, _, _, hadv⟩
    · rcases replicateOnce_cases sent with hmsg | ⟨_, _, _, _, hmsg⟩
      · cases hmsg
      · cases hmsg
        simp [hlead] at hold
    · cases hk.leads
    · rw [← hacc] at hno
      cases hno
    · generalize args.prevLogIndex + args.entries.length = k at hadv
      have hkeep := advanceCommitIndex_keeps hadv
      rcases Nat.lt_or_ge l.commitIndex l.lastLogIndex with hlt | hge
      · have hknown : l'.matchIndex = (confirmed l p k).matchIndex := by
          rw [hkeep]
        rw [hknown] at hmatch hmany
        have hhalf : CommitRule.HalfIndex (confirmed l p k).matchIndex l.lastLogIndex := by
          refine ⟨hmany, fun M hM => ?_⟩
          have hcard : 0 < Majority.holders (confirmed l p k).matchIndex M := by
            have : 0 < n := Fin.pos p
            have hM : n ≤ 2 * Majority.holders _ M := hM
            omega
          obtain ⟨q, hq⟩ := Finset.card_pos.mp hcard
          exact (Finset.mem_filter.mp hq).2.trans (hmatch q)
        obtain ⟨_, rf', hrf', hcommit⟩ := (CommitRule.raises_iff (confirmed l p k) hlead
          l.lastLogIndex).mpr ⟨⟨hlt, le_refl _, hentry⟩, hhalf⟩
        rw [hadv] at hrf'
        cases hrf'
        exact hcommit.ge
      · exact hge.trans ((led_confirmed l p k).advance hadv).commit

end rounds

section visits
variable {c p : Fin n} {t i : ℕ}

/-- `c` leads term `t` with an entry of its own at the last index `i`, which nobody in `A`
    has applied, and everybody in `A` is in reach. -/
structure Leading (sm : StateMachine C S) (A : Finset (Fin n)) (c : Fin n) (t i : ℕ)
    (s : Cluster n C S) : Prop where
  reached : ∃ tr, Run (cluster n sm) tr s
  leads : (s.procs c).rf.state = .leader
  term : (s.procs c).rf.currentTerm = t
  last : (s.procs c).rf.lastLogIndex = i
  entry : ∃ e, (s.procs c).rf.entryAt i = some e ∧ e.term = t
  own : i ≤ (s.procs c).rf.matchIndex c
  behind : ∀ p ∈ A, (s.procs p).rf.lastApplied < i ∧ (s.procs p).rf.lastIncludedIndex < i
  terms : ∀ p ∈ A, (s.procs p).rf.currentTerm ≤ t
  reach : ∀ p ∈ A, p ≠ c → InReach p (s.procs c).rf (s.procs p).rf

def Settled (s : Cluster n C S) (c : Fin n) (i : ℕ) : Prop :=
  n ≤ 2 * Majority.holders (s.procs c).rf.matchIndex i → i ≤ (s.procs c).rf.commitIndex

structure Visited (s u : Cluster n C S) (c p : Fin n) (i : ℕ) : Prop where
  known : i ≤ (u.procs c).rf.matchIndex p
  mono : ∀ q, (s.procs c).rf.matchIndex q ≤ (u.procs c).rf.matchIndex q
  commit : (s.procs c).rf.commitIndex ≤ (u.procs c).rf.commitIndex
  told : (s.procs c).rf.commitIndex ≤ (u.procs p).rf.commitIndex
  others : ∀ q, q ≠ c → q ≠ p → u.procs q = s.procs q
  settled : Settled u c i

theorem Leading.round (h : Leading sm A c t i s) (hp : p ∈ A) (hne : p ≠ c) (hc : c ∈ A)
    {l' f' : Raft n C S} {accepted : Bool}
    (hx : Exchange (s.procs c).rf (s.procs p).rf p l' f' accepted)
    (hk : Kept (s.procs c).rf l' f') (hreach : InReach p l' f') :
    ∃ u, Reaches (among sm A) s u ∧ Leading sm A c t i u ∧ (u.procs c).rf = l' ∧
      (u.procs p).rf = f' ∧ ∀ q, q ≠ c → q ≠ p → u.procs q = s.procs q := by
  have hround : RaftBacktrack.round sm c p s = _ := round_of_exchange hne hx
  have hled := exchange_led hx hk
  have hfol := exchange_followed hx (by rw [h.term]; exact h.terms p hp)
  obtain ⟨tr, run⟩ := h.reached
  have hgo := round_among hc hp hround
  generalize hu : (s.setRaft p f').setRaft c l' = u at hgo
  have hcu : (u.procs c).rf = l' := by simp [← hu, Cluster.setRaft, Cluster.setProc]
  have hpu : (u.procs p).rf = f' := by simp [← hu, Cluster.setRaft, Cluster.setProc, hne]
  have hothers : ∀ q, q ≠ c → q ≠ p → u.procs q = s.procs q := by
    intro q hqc hqp
    simp [← hu, Cluster.setRaft, Cluster.setProc, hqc, hqp]
  have hlast : l'.lastLogIndex = i := by rw [hled.log.lastLogIndex, h.last]
  have hentry : l'.entryAt i = (s.procs c).rf.entryAt i := by
    simp [Raft.entryAt, Raft.offset, hled.log.log, hled.log.base]
  have hbehind := h.behind
  refine ⟨u, hgo, ?_, hcu, hpu, hothers⟩
  obtain ⟨new, run'⟩ := among_run run hgo
  refine ⟨⟨_, run'⟩, by rw [hcu]; exact hk.leads, by rw [hcu, hk.term]; exact h.term,
    by rw [hcu]; exact hlast, by rw [hcu, hentry]; exact h.entry,
    by rw [hcu]; exact h.own.trans (hled.known c), ?_, ?_, ?_⟩
  · intro q hq
    by_cases hqc : q = c
    · rw [hqc, hcu, hled.applied, hled.log.base]
      exact hbehind c hc
    · by_cases hqp : q = p
      · rw [hqp, hpu, hfol.applied]
        have hbase := hfol.base
        have h1 := hbehind p hp
        have h2 := hbehind c hc
        exact ⟨h1.1, by omega⟩
      · rw [hothers q hqc hqp]
        exact hbehind q hq
  · intro q hq
    by_cases hqc : q = c
    · rw [hqc, hcu, hk.term, h.term]
    · by_cases hqp : q = p
      · rw [hqp, hpu, hk.joined, h.term]
      · rw [hothers q hqc hqp]
        exact h.terms q hq
  · intro q hq hqc
    by_cases hqp : q = p
    · rw [hqp, hcu, hpu]
      exact hreach
    · rw [hcu, hothers q hqc hqp]
      have := h.reach q hq hqc
      unfold InReach at *
      rw [hled.log.base, hled.next q hqp]
      exact this

theorem Leading.link (h : Leading sm A c t i s) (hp : p ∈ A) :
    ∃ X Y, Link X Y (s.procs c).rf (s.procs p).rf p ∧ X.length = i ∧
      (s.procs c).rf.commitIndex ≤ X.length := by
  obtain ⟨tr, run⟩ := h.reached
  obtain ⟨X, Y, hlink⟩ := link_of_run (p := p) run h.leads (by rw [h.term]; exact h.terms p hp)
  have hlast := hlink.lead.lastLogIndex
  obtain ⟨g, hi, _⟩ := RaftSafety.visits_inv run
  have hcommit := (RaftInv.inBounds (hi.procs c).raft).commit_le
  exact ⟨X, Y, hlink, by rw [← hlast, h.last], by rw [← hlast]; exact hcommit⟩

theorem Leading.known_le (h : Leading sm A c t i s) (q : Fin n) :
    (s.procs c).rf.matchIndex q ≤ i := by
  obtain ⟨tr, run⟩ := h.reached
  obtain ⟨g, hi, _⟩ := RaftSafety.visits_inv run
  have hraft := (hi.procs c).raft
  obtain ⟨ld, hld, _, hlog⟩ := hraft.leader_log hi.valid h.leads
  have hlast := hraft.shape.lastLogIndex
  have hcommit := hraft.commit_le
  have hknown := hraft.acked h.leads q
  have hack : g.ack q (s.procs c).rf.currentTerm ≤ (g.log c).length := by
    rcases Nat.eq_zero_or_pos (g.ack q (s.procs c).rf.currentTerm) with hzero | hpos
    · omega
    · obtain ⟨ld', hld', hle⟩ := hi.valid.ack_lead _ _ hpos
      rw [hld] at hld'
      cases hld'
      rw [hlog]
      exact hle
  rw [h.last] at hlast
  omega

/-- The leader exchanges rounds with `p` until one is accepted. -/
theorem visit (h : Leading sm A c t i s) (hp : p ∈ A) (hne : p ≠ c) (hc : c ∈ A) :
    ∃ u, Reaches (among sm A) s u ∧ Leading sm A c t i u ∧ Visited s u c p i := by
  induction hr : rank p (s.procs c).rf (s.procs p).rf using Nat.strongRecOn generalizing s with
  | ind r ih =>
    obtain ⟨X, Y, hlink, hlen, hcommit⟩ := h.link hp
    rcases turn_inReach hlink (h.reach p hp hne) with
      ⟨l', f', hx, hk, hmatch⟩ | ⟨l', f', hx, hk, hreach, hlt⟩
    · have hled := exchange_led hx hk
      have hnext := exchange_next hlink hk hx
      obtain ⟨u, hu, hlead, hcu, hpu, hothers⟩ := h.round hp hne hc hx hk (by
        have hbase := (exchange_followed hx (by rw [h.term]; exact h.terms p hp)).base
        have h1 := h.behind p hp
        have h2 := h.behind c hc
        exact .inr (by omega))
      refine ⟨u, hu, hlead, ?_⟩
      constructor
      · rw [hcu, hmatch, hled.log.lastLogIndex, h.last]
      · rw [hcu]
        exact hled.known
      · rw [hcu]
        exact hled.commit
      · rw [hpu]
        exact exchange_told hlink hcommit hx
      · exact hothers
      · intro hmany
        have hknown := hlead.known_le
        rw [hcu] at hmany hknown ⊢
        rw [← h.last] at hmany hknown ⊢
        refine exchange_commits h.leads hk hknown ?_ hx hmany
        rw [h.last, h.term]
        exact h.entry
    · have hled := exchange_led hx hk
      obtain ⟨u, hu, hlead, hcu, hpu, hothers⟩ := h.round hp hne hc hx hk hreach
      rw [← hcu, ← hpu, hr] at hlt
      obtain ⟨v, hv, hlead', hvis⟩ := ih _ hlt hlead rfl
      rw [← hcu] at hled
      exact ⟨v, hu.trans hv, hlead', hvis.known, fun q => (hled.known q).trans (hvis.mono q),
        hled.commit.trans hvis.commit, hled.commit.trans hvis.told,
        fun q hqc hqp => (hvis.others q hqc hqp).trans (hothers q hqc hqp), hvis.settled⟩

theorem visit_all (h : Leading sm A c t i s) (hc : c ∈ A) {vs : List (Fin n)}
    (hvs : ∀ v ∈ vs, v ∈ A ∧ v ≠ c) (hnodup : vs.Nodup) :
    ∃ u, Reaches (among sm A) s u ∧ Leading sm A c t i u ∧
      (∀ q, (s.procs c).rf.matchIndex q ≤ (u.procs c).rf.matchIndex q) ∧
      (s.procs c).rf.commitIndex ≤ (u.procs c).rf.commitIndex ∧
      (∀ v ∈ vs, i ≤ (u.procs c).rf.matchIndex v ∧
        (s.procs c).rf.commitIndex ≤ (u.procs v).rf.commitIndex) ∧
      (∀ q, q ≠ c → q ∉ vs → u.procs q = s.procs q) ∧
      (Settled s c i ∨ vs ≠ [] → Settled u c i) := by
  induction vs generalizing s with
  | nil =>
    exact ⟨s, .refl s, h, fun _ => le_refl _, le_refl _, by simp, fun _ _ _ => rfl, by simp⟩
  | cons v vs ih =>
    obtain ⟨hv, hne⟩ := hvs v List.mem_cons_self
    obtain ⟨hfresh, hrest⟩ := List.nodup_cons.mp hnodup
    obtain ⟨x, hx, hlead, hvis⟩ := visit h hv hne hc
    obtain ⟨u, hu, hlead', hmono, hcommit, hall, hothers, hsettled⟩ :=
      ih hlead (fun w hw => hvs w (List.mem_cons_of_mem _ hw)) hrest
    refine ⟨u, hx.trans hu, hlead', fun q => (hvis.mono q).trans (hmono q),
      hvis.commit.trans hcommit, ?_, ?_, fun _ => hsettled (.inl hvis.settled)⟩
    · intro w hw
      rcases List.mem_cons.mp hw with rfl | hw
      · refine ⟨hvis.known.trans (hmono w), ?_⟩
        rw [hothers w hne hfresh]
        exact hvis.told
      · exact ⟨(hall w hw).1, hvis.commit.trans (hall w hw).2⟩
    · intro q hqc hq
      rw [hothers q hqc fun hm => hq (List.mem_cons_of_mem _ hm)]
      exact hvis.others q hqc fun hqv => hq (hqv ▸ List.mem_cons_self)

/-- After two visits to everybody, the whole of `A` has committed the last entry. -/
theorem commits (h : Leading sm A c t i s) (hc : c ∈ A) (hn : 2 ≤ n) (hA : n / 2 < A.card) :
    ∃ u, Reaches (among sm A) s u ∧ Leading sm A c t i u ∧
      ∀ p ∈ A, i ≤ (u.procs p).rf.commitIndex := by
  have hmem : ∀ v ∈ (A.erase c).toList, v ∈ A ∧ v ≠ c := by
    intro v hv
    obtain ⟨hne, hv⟩ := Finset.mem_erase.mp (Finset.mem_toList.mp hv)
    exact ⟨hv, hne⟩
  have hother : ∀ p ∈ A, p ≠ c → p ∈ (A.erase c).toList := fun p hp hne =>
    Finset.mem_toList.mpr (Finset.mem_erase.mpr ⟨hne, hp⟩)
  obtain ⟨x, hx, hlead, _, _, hall, _, hsettled⟩ := visit_all h hc hmem (Finset.nodup_toList _)
  have hcommit : i ≤ (x.procs c).rf.commitIndex := by
    refine hsettled (.inr ?_) ?_
    · intro hnil
      have hcard := congrArg List.length hnil
      rw [Finset.length_toList, Finset.card_erase_of_mem hc, List.length_nil] at hcard
      omega
    · -- everybody in `A` has it, and that is more than half
      have hsub : A ⊆ Finset.univ.filter (fun q => i ≤ (x.procs c).rf.matchIndex q) := by
        intro q hq
        refine Finset.mem_filter.mpr ⟨Finset.mem_univ q, ?_⟩
        by_cases hqc : q = c
        · rw [hqc]
          exact hlead.own
        · exact (hall q (hother q hq hqc)).1
      have hcard := Finset.card_le_card hsub
      unfold Majority.holders
      omega
  obtain ⟨u, hu, hlead', _, hmono, hall', _, _⟩ := visit_all hlead hc hmem (Finset.nodup_toList _)
  refine ⟨u, hx.trans hu, hlead', fun p hp => ?_⟩
  by_cases hpc : p = c
  · rw [hpc]
    exact hcommit.trans hmono
  · exact hcommit.trans (hall' p (hother p hp hpc)).2

end visits

section delivery
variable {p : Fin n} {i : ℕ}

theorem among_delivered (h : Reaches (among sm A) s u) : s.delivered ⊆ u.delivered := by
  induction h with
  | refl => exact fun _ hd => hd
  | next _ h ih =>
    refine fun d hd => ?_
    have hd := ih hd
    cases exec_spec h.1 with
    | send => exact List.mem_cons_of_mem _ hd
    | _ => exact hd

structure Delivers (s u : Cluster n C S) (p : Fin n) : Prop where
  others : ∀ q, q ≠ p → u.procs q = s.procs q
  term : (u.procs p).rf.currentTerm = (s.procs p).rf.currentTerm
  commit : (u.procs p).rf.commitIndex = (s.procs p).rf.commitIndex

theorem Delivers.trans {v : Cluster n C S} (h : Delivers s u p) (h' : Delivers u v p) :
    Delivers s v p :=
  ⟨fun q hq => (h'.others q hq).trans (h.others q hq), h'.term.trans h.term,
    h'.commit.trans h.commit⟩

variable (sm) in
theorem flush (hp : p ∈ A) : ∃ u, Reaches (among sm A) s u ∧ Delivers s u p ∧
    (u.procs p).sending = none ∧ (u.procs p).rf = (s.procs p).rf ∧
    ∀ m, (s.procs p).sending = some m → ∃ d ∈ u.delivered, d.peer = p ∧ d.msg = m := by
  cases hm : (s.procs p).sending with
  | none => exact ⟨s, .refl s, ⟨fun _ _ => rfl, rfl, rfl⟩, hm, rfl, by simp⟩
  | some m =>
    have hsend := show s.exec sm (.send p) = some _ by
      simp only [Cluster.exec, hm, Option.bind_eq_bind, Option.bind_some]
      rfl
    refine ⟨_, among_step hsend hp, ⟨?_, ?_, ?_⟩, ?_, ?_, ?_⟩
    · intro q hq
      simp [Cluster.setProc, hq]
    · simp [Cluster.setProc]
    · simp [Cluster.setProc]
    · simp [Cluster.setProc]
    · simp [Cluster.setProc]
    · rintro _ ⟨⟩
      exact ⟨_, List.mem_cons_self, rfl, rfl⟩

variable (sm) in
theorem take (hp : p ∈ A) (hfree : (s.procs p).sending = none)
    (hready : (s.procs p).rf.applierReady = true) {rf : Raft n C S} {msg : ApplyMsg C S}
    (h : (s.procs p).rf.applier = some (rf, msg)) (hterm : rf.currentTerm = (s.procs p).rf.currentTerm)
    (hcommit : rf.commitIndex = (s.procs p).rf.commitIndex) :
    ∃ u, Reaches (among sm A) s u ∧ Delivers s u p ∧ (u.procs p).rf = rf ∧
      (u.procs p).sending = some msg := by
  have happly := show s.exec sm (.applier p) = some _ by
    simp only [Cluster.exec, hfree, hready, Option.isSome_none, Bool.not_true, Bool.or_self,
      Bool.false_eq_true, if_false, h, Option.bind_eq_bind, Option.bind_some]
    rfl
  refine ⟨_, among_step happly hp, ⟨?_, ?_, ?_⟩, ?_, ?_⟩
  · intro q hq
    simp [Cluster.setProc, hq]
  · simpa [Cluster.setProc] using hterm
  · simpa [Cluster.setProc] using hcommit
  · simp [Cluster.setProc]
  · simp [Cluster.setProc]

theorem delivers (run : Run (cluster n sm) tr s) (hp : p ∈ A)
    (hcommit : i ≤ (s.procs p).rf.commitIndex) (happlied : (s.procs p).rf.lastApplied < i)
    (hbase : (s.procs p).rf.lastIncludedIndex < i) : ∃ u, Reaches (among sm A) s u ∧
      Delivers s u p ∧ ∃ d ∈ u.delivered, d.peer = p ∧ ∃ c, d.msg = .command c i := by
  induction hr : i - (s.procs p).rf.lastApplied using Nat.strongRecOn generalizing s tr with
  | ind r ih =>
    obtain ⟨x, hx, hdel, hfree, hrf, _⟩ := flush sm (s := s) hp
    obtain ⟨new, run'⟩ := among_run run hx
    obtain ⟨g, hi, _⟩ := RaftSafety.visits_inv run'
    have hraft := (hi.procs p).raft
    rw [← hrf] at hcommit happlied hbase hr
    have hready : (x.procs p).rf.applierReady = true := by
      have : (x.procs p).rf.lastApplied < (x.procs p).rf.commitIndex := by omega
      simp [Raft.applierReady, this]
    obtain ⟨⟨rf, msg⟩, happ⟩ :=
      Option.isSome_iff_exists.mp ((RaftInv.inBounds hraft).applier hready)
    obtain ⟨_, _, hstream, hterm, _, hcom⟩ := applier_step hraft hready happ
    obtain ⟨y, hy, hdel', hrf', hsending⟩ := take sm hp hfree hready happ hterm hcom
    have hcases : rf.lastIncludedIndex = (x.procs p).rf.lastIncludedIndex ∧
        (x.procs p).rf.lastApplied < rf.lastApplied ∧
        (rf.lastApplied = (x.procs p).rf.lastIncludedIndex ∨
          rf.lastApplied = (x.procs p).rf.lastApplied + 1 ∧ ∃ c, msg = .command c rf.lastApplied) := by
      rcases applier_cases happ with ⟨hpend, rfl, rfl⟩ | ⟨_, rfl, e, _, rfl⟩
      · obtain ⟨hidx, hlt, _⟩ := hraft.pending hpend
        exact ⟨rfl, by rw [hidx]; exact hlt, .inl hidx⟩
      · exact ⟨rfl, Nat.lt_succ_self _, .inr ⟨rfl, _, rfl⟩⟩
    obtain ⟨hb, hmore, hnext⟩ := hcases
    by_cases hdone : rf.lastApplied < i
    · obtain ⟨new', run''⟩ := among_run run' hy
      rw [← hrf'] at hb hmore hdone
      obtain ⟨u, hu, hdel'', hfound⟩ := ih (i - (y.procs p).rf.lastApplied) (by omega) run''
        (by rw [hrf', hcom]; exact hcommit) hdone (by rw [hb]; exact hbase) rfl
      exact ⟨u, (hx.trans hy).trans hu, (hdel.trans hdel').trans hdel'', hfound⟩
    · rcases hnext with hsnap | ⟨hsucc, c, rfl⟩
      · omega
      · obtain ⟨u, hu, hdel'', _, _, hsent⟩ := flush sm (s := y) hp
        obtain ⟨d, hd, hpeer, hmsg⟩ := hsent _ hsending
        refine ⟨u, (hx.trans hy).trans hu, (hdel.trans hdel').trans hdel'', d, hd, hpeer, c, ?_⟩
        rw [hmsg, show rf.lastApplied = i by omega]

theorem delivers_all (run : Run (cluster n sm) tr s) {vs : List (Fin n)} (hvs : ∀ v ∈ vs, v ∈ A)
    (hnodup : vs.Nodup) (hready : ∀ v ∈ vs, i ≤ (s.procs v).rf.commitIndex ∧
      (s.procs v).rf.lastApplied < i ∧ (s.procs v).rf.lastIncludedIndex < i) :
    ∃ u, Reaches (among sm A) s u ∧ (∀ q, (u.procs q).rf.currentTerm = (s.procs q).rf.currentTerm ∧
        (u.procs q).rf.commitIndex = (s.procs q).rf.commitIndex) ∧
      ∀ v ∈ vs, ∃ d ∈ u.delivered, d.peer = v ∧ ∃ c, d.msg = .command c i := by
  induction vs generalizing s tr with
  | nil => exact ⟨s, .refl s, fun _ => ⟨rfl, rfl⟩, by simp⟩
  | cons v vs ih =>
    obtain ⟨hfresh, hrest⟩ := List.nodup_cons.mp hnodup
    obtain ⟨hcommit, happlied, hbase⟩ := hready v List.mem_cons_self
    obtain ⟨x, hx, hdel, hfound⟩ := delivers run (hvs v List.mem_cons_self) hcommit happlied hbase
    obtain ⟨new, run'⟩ := among_run run hx
    have hsame : ∀ q, (x.procs q).rf.currentTerm = (s.procs q).rf.currentTerm ∧
        (x.procs q).rf.commitIndex = (s.procs q).rf.commitIndex := by
      intro q
      by_cases hq : q = v
      · rw [hq]
        exact ⟨hdel.term, hdel.commit⟩
      · rw [hdel.others q hq]
        exact ⟨rfl, rfl⟩
    obtain ⟨u, hu, hsame', hall⟩ := ih run' (fun w hw => hvs w (List.mem_cons_of_mem _ hw)) hrest
      (fun w hw => by
        rw [hdel.others w fun h => hfresh (h ▸ hw)]
        exact hready w (List.mem_cons_of_mem _ hw))
    refine ⟨u, hx.trans hu, fun q => ⟨(hsame' q).1.trans (hsame q).1,
      (hsame' q).2.trans (hsame q).2⟩, fun w hw => ?_⟩
    rcases List.mem_cons.mp hw with rfl | hw
    · obtain ⟨d, hd, rest⟩ := hfound
      exact ⟨d, among_delivered hu hd, rest⟩
    · exact hall w hw

end delivery

section majority
variable {c : Fin n} {t : ℕ} {g : History n C}

/-- No leader is ahead of a majority: it would have the vote of one of its peers. -/
theorem lead_le (hi : Inv sm s g) (hA : n / 2 < A.card)
    (hterms : ∀ p ∈ A, (s.procs p).rf.currentTerm ≤ t) {w : ℕ}
    {ld : Leader (Fin n) (LogEntry C)} (hld : g.lead w = some ld) : w ≤ t := by
  obtain ⟨B, hB, hvotes⟩ := hi.valid.won w ld hld
  obtain ⟨v, hvA, hvB⟩ := Majority.meet_of_card A B (by
    have hB : n / 2 < B.card := hB
    omega)
  obtain ⟨l, hvote, _⟩ := hvotes v hvB
  have hle := hi.valid.vote_term v w _ hvote
  rw [(hi.procs v).raft.term] at hle
  exact hle.trans (hterms v hvA)

theorem decided_in_leader (hi : Inv sm s g) (hA : n / 2 < A.card)
    (hterms : ∀ p ∈ A, (s.procs p).rf.currentTerm ≤ t) (he : Elected s c t)
    {l : List (LogEntry C)} (hl : Decided g l) : l <+: g.log c := by
  obtain ⟨ld, hld, _, hlog⟩ := (hi.procs c).raft.leader_log hi.valid he.leads
  rw [he.term] at hld
  rw [hlog]
  obtain ⟨T, rfl | ⟨w, k, lw, _, hc, hlw, hp⟩⟩ := hl
  · exact List.nil_prefix
  · exact Sealed.in_lead hi.valid (.inr ⟨w, k, lw, le_refl _, hc, hlw, hp⟩)
      (lead_le hi hA hterms hlw) hld

theorem started (run : Run (cluster n sm) tr s) (hA : n / 2 < A.card)
    (hterms : ∀ p ∈ A, (s.procs p).rf.currentTerm ≤ t) (he : Elected s c t)
    (command : Option C) : Leading sm A c t ((s.procs c).rf.lastLogIndex + 1)
      (s.setRaft c ((s.procs c).rf.start command).1) := by
  obtain ⟨g, hi, _⟩ := RaftSafety.visits_inv run
  have hraft := (hi.procs c).raft
  have hpos := (RaftInv.inBounds hraft).length_pos
  have hstart := start_leader he.leads hpos command
  have hexec : s.exec sm (.start c command) = some (s.setRaft c ((s.procs c).rf.start command).1) :=
    rfl
  have hrf : ((s.setRaft c ((s.procs c).rf.start command).1).procs c).rf =
      ((s.procs c).rf.start command).1 := by simp [Cluster.setRaft, Cluster.setProc]
  have hothers : ∀ q, q ≠ c → (s.setRaft c ((s.procs c).rf.start command).1).procs q = s.procs q := by
    intro q hq
    simp [Cluster.setRaft, Cluster.setProc, hq]
  -- what others have applied or compacted is decided, and so it is in the leader's log
  have hbehind : ∀ p, (s.procs p).rf.lastApplied < (s.procs c).rf.lastLogIndex + 1 ∧
      (s.procs p).rf.lastIncludedIndex < (s.procs c).rf.lastLogIndex + 1 := by
    intro p
    have hp := (hi.procs p).raft
    have hin := (decided_in_leader hi hA hterms he ⟨_, hp.committed⟩).length_le
    have h1 := hp.commit_le
    have h2 := hp.applied_le
    have h3 := hp.base_le
    rw [List.length_take] at hin
    rw [hraft.shape.lastLogIndex]
    omega
  have hlast : (s.procs c).rf.lastLogIndex + 1 =
      (s.procs c).rf.lastIncludedIndex + (s.procs c).rf.log.length := by
    unfold Raft.lastLogIndex
    omega
  refine ⟨⟨_, run.next hexec⟩, ?_, ?_, ?_, ?_, ?_, ?_, ?_, ?_⟩
  · rw [hrf, hstart]
    exact he.leads
  · rw [hrf, hstart]
    exact he.term
  · rw [hrf, hstart]
    simp only [Raft.persist, Raft.lastLogIndex, List.length_append, List.length_singleton] at *
    omega
  · rw [hrf, hstart]
    refine ⟨⟨(s.procs c).rf.currentTerm, command⟩, ?_, he.term⟩
    simp [Raft.persist, Raft.entryAt, Raft.offset, hlast]
  · rw [hrf, hstart]
    simp [Raft.persist, hraft.me]
  · intro p _
    by_cases hp : p = c
    · rw [hp, hrf, hstart]
      exact hbehind c
    · rw [hothers p hp]
      exact hbehind p
  · intro p hp
    by_cases hpc : p = c
    · rw [hpc, hrf, hstart]
      exact he.term.le
    · rw [hothers p hpc]
      exact hterms p hp
  · intro p _ hne
    right
    rw [hothers p hne, hrf, hstart]
    change _ < Function.update (s.procs c).rf.nextIndex (s.procs c).rf.me _ p
    rw [hraft.me, Function.update_of_ne hne, he.next p]
    exact (hbehind p).2

/-- On their own, the peers of `A` come from `s` to a state `x` in which one of them, `c`, leads a
    term that none of them had reached; `Start` on it accepts the command for the index `i`; and
    from there they come to a state `u` in which all of them have delivered it. Nothing had
    been delivered for `i` before. -/
structure Served (sm : StateMachine C S) (A : Finset (Fin n)) (command : Option C)
    (s x u : Cluster n C S) (c : Fin n) (i t : ℕ) : Prop where
  elected : Reaches (among sm A) s x
  member : c ∈ A
  leads : (x.procs c).rf.state = .leader
  newer : ∀ p ∈ A, (s.procs p).rf.currentTerm < t
  accepted : ((x.procs c).rf.start command).2 = ((i : ℤ), t, true)
  reaches : Reaches (among sm A) (x.setRaft c ((x.procs c).rf.start command).1) u
  unused : ∀ d ∈ s.delivered, ∀ c', d.msg ≠ .command c' i
  delivered : ∀ p ∈ A, ∃ d ∈ u.delivered, d.peer = p ∧ d.msg = .command command i

def Serves (sm : StateMachine C S) (A : Finset (Fin n)) (s : Cluster n C S) (command : Option C) :
    Prop :=
  ∃ x u c i t, Served sm A command s x u c i t

theorem majority_serves (run : Run (cluster n sm) tr s) (hn : 2 ≤ n) (hA : n / 2 < A.card)
    (command : Option C) : Serves sm A s command := by
  obtain ⟨x, c, t, hx, hc, he, hnewer, hterms⟩ := majority_elects run hn hA
  obtain ⟨new, hrunx⟩ := among_run run hx
  have hlead := started hrunx hA hterms he command
  have haccepted : ((x.procs c).rf.start command).2 =
      ((((x.procs c).rf.lastLogIndex + 1 : ℕ) : ℤ), t, true) :=
    (RaftProvenance.start_result_iff _ _ _ _).mpr ⟨he.leads, rfl, he.term.symm⟩
  obtain ⟨y, hy, hlead', hcommit⟩ := commits hlead hc hn hA
  have hruny := hrunx.next (show (cluster n sm).step x (.start c command) _ from rfl)
  obtain ⟨new', hruny⟩ := among_run hruny hy
  obtain ⟨u, hu, hsame, hall⟩ := delivers_all (i := _) hruny
    (fun v (hv : v ∈ A.toList) => Finset.mem_toList.mp hv) (Finset.nodup_toList A)
    (fun v hv => ⟨hcommit v (Finset.mem_toList.mp hv), hlead'.behind v (Finset.mem_toList.mp hv)⟩)
  obtain ⟨new'', hrunu⟩ := among_run hruny hu
  refine ⟨x, u, c, _, t, hx, hc, he.leads, hnewer, haccepted, hy.trans hu, ?_, ?_⟩
  · -- what was delivered before is in the leader's log when it is elected
    intro d hd c' hmsg
    obtain ⟨g, hi, _⟩ := RaftSafety.visits_inv hrunx
    have hm := hi.delivered d (among_delivered hx hd)
    rw [hmsg] at hm
    obtain ⟨_, l, e, hdec, hl, _⟩ := hm
    have hle := (decided_in_leader hi hA hterms he hdec).length_le
    have hlt := (List.getElem?_eq_some_iff.mp hl).choose
    rw [(hi.procs c).raft.shape.lastLogIndex] at hlt
    omega
  · -- the command delivered is the one that was started
    intro p hp
    obtain ⟨d, hd, hpeer, c', hmsg⟩ := hall p (Finset.mem_toList.mpr hp)
    obtain ⟨g, hi, ha⟩ := RaftProvenance.accounts_run hrunu
    have hstart : RaftProvenance.Starts ⟨x, .start c command,
        x.setRaft c ((x.procs c).rf.start command).1⟩ c command
          ((x.procs c).rf.lastLogIndex + 1) t := ⟨rfl, haccepted⟩
    have hstays := ha.stays hi (by simp) hstart ((hsame c).1.trans hlead'.term)
    have := hstays.committed (by rw [(hsame c).2]; exact hcommit c hc) u (.refl u) d hd c' hmsg
    exact ⟨d, hd, hpeer, by rw [hmsg, this]⟩

end majority

section alone
variable {sm : StateMachine C S} {s : Cluster 1 C S}
  {tr : List (Transition (Cluster 1 C S) (Label 1 C))}

/-- A single peer never calls anybody and never leads. -/
theorem never_leads (run : Run (cluster 1 sm) tr s) :
    s.rpcs = [] ∧ ∀ p, (s.procs p).rf.state ≠ .leader := by
  refine run.history (I := fun _ s => s.rpcs = [] ∧ ∀ p, (s.procs p).rf.state ≠ .leader) ?_ ?_
  · rintro _ rfl
    exact ⟨rfl, fun p h => by cases h⟩
  · intro tr s l u run ⟨hrpcs, hstate⟩ h
    have hset : ∀ (p : Fin 1) (y : Proc 1 C S), y.rf.state ≠ .leader →
        ∀ q, ((s.setProc p y).procs q).rf.state ≠ .leader := by
      intro p y hy q
      rw [Subsingleton.elim q p]
      simpa [Cluster.setProc] using hy
    -- `startElection` has no goroutine for the candidate itself, and there is no other peer
    have hself : ∀ (p q : Fin 1) t, (s.procs p).poll t q ≠ .spawned := by
      obtain ⟨g, hi, _⟩ := RaftSafety.visits_inv run
      intro p q t
      rw [Subsingleton.elim q p, (hi.procs p).pollSelf t]
      simp
    cases exec_spec h with
    | tick p => exact ⟨hrpcs, hset p _ (hstate p)⟩
    | startElection p => exact ⟨hrpcs, hset p _ (fun hl => by cases hl)⟩
    | skipVote p => exact ⟨hrpcs, hset p _ (hstate p)⟩
    | sendVote p t peer =>
      dsimp only [cluster, Cluster.exec, Cluster.sendRequestVote] at h
      rw [if_pos (hself p peer t)] at h
      cases h
    | skipReplicate => exact ⟨hrpcs, hstate⟩
    | sendAppend p peer args hsent =>
      rw [Raft.replicateOnce, if_pos (hstate p)] at hsent
      cases hsent
    | sendSnapshot p peer args hsent =>
      rw [Raft.replicateOnce, if_pos (hstate p)] at hsent
      cases hsent
    | handle k r call rf hk =>
      rw [hrpcs] at hk
      cases hk
    | reply k r y hk =>
      rw [hrpcs] at hk
      cases hk
    | lose k => exact ⟨by rw [hrpcs]; rfl, hstate⟩
    | start p command =>
      exact ⟨hrpcs, hset p _ (by rw [start_follower (hstate p)]; exact hstate p)⟩
    | snapshot p k i st rf hrf =>
      refine ⟨hrpcs, hset p _ ?_⟩
      rcases takeSnapshot_cases hrf with rfl | ⟨_, _, _, _, _, _, rfl⟩
      · exact hstate p
      · exact hstate p
    | applier p rf msg free ready happ =>
      refine ⟨hrpcs, hset p _ ?_⟩
      rcases applier_cases happ with ⟨_, rfl, _⟩ | ⟨_, rfl, _⟩
      · exact hstate p
      · exact hstate p
    | send p => exact ⟨hrpcs, hset p _ (hstate p)⟩
    | receive p => exact ⟨hrpcs, hset p _ (hstate p)⟩
    | restart p =>
      refine ⟨hrpcs, hset p _ ?_⟩
      rw [show (boot sm p _ _).rf.state = .follower from (make_frame p _).2.2.1]
      simp

end alone

theorem available_iff (sm : StateMachine C S) :
    (∀ tr (s : Cluster n C S), Run (cluster n sm) tr s → ∀ A : Finset (Fin n), n / 2 < A.card →
      ∀ command, Serves sm A s command) ↔ n ≠ 1 := by
  constructor
  · rintro h rfl
    obtain ⟨x, _, c, _, _, hserved⟩ := h [] (initial sm) (.start rfl) Finset.univ (by simp) none
    obtain ⟨new, run⟩ := among_run (.start rfl) hserved.elected
    exact (never_leads run).2 c hserved.leads
  · intro hn tr s run A hA command
    have hcard := Finset.card_le_univ A
    rw [Fintype.card_fin] at hcard
    exact majority_serves run (by omega) hA command

end DistributedLabs.RaftAvailability
