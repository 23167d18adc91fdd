import Mathlib.Data.Finset.Max
import Mathlib.Data.Prod.Lex
import DistributedLabs.RaftBacktrack

set_option autoImplicit false

/-!
# A majority can always elect a leader

From every reachable state, whoever leads or thinks so and whatever messages are in
flight, the peers of a majority can elect one of themselves without the others, without
losing a message and without a crash. The one with the most up to date log campaigns
until its term is above all others.
-/
namespace DistributedLabs.RaftElection
open RaftModel RaftCluster RaftShape RaftHistory RaftBounds RaftBacktrack Runs

variable {n : ℕ} {C S : Type} {sm : StateMachine C S} {s u : Cluster n C S} {A : Finset (Fin n)}
  {tr : List (Transition (Cluster n C S) (Label n C))}

/-- The step is one of peers of `A` among themselves. Nothing is lost and nobody crashes. -/
def Within (A : Finset (Fin n)) (s : Cluster n C S) : Label n C → Prop
  | .tick p | .startElection p | .start p _ | .applier p | .send p => p ∈ A
  | .sendRequestVote p _ peer | .replicateOnce p peer => p ∈ A ∧ peer ∈ A
  | .handle k | .reply k => ∃ r, s.rpcs[k]? = some r ∧ r.caller ∈ A ∧ r.target ∈ A
  | .lose _ | .snapshot _ _ | .receive _ | .restart _ => False

def among (sm : StateMachine C S) (A : Finset (Fin n)) : Machine (Cluster n C S) (Label n C) :=
  (cluster n sm).guarded (Within A)

theorem among_run (run : Run (cluster n sm) tr s) (h : Reaches (among sm A) s u) :
    ∃ new, Run (cluster n sm) (new ++ tr) u := by
  induction h with
  | refl => exact ⟨[], run⟩
  | next _ h ih =>
    obtain ⟨new, run'⟩ := ih
    exact ⟨_ :: new, run'.next h.1⟩

theorem among_reaches (h : Reaches (among sm A) s u) : Reaches (cluster n sm) s u := by
  induction h with
  | refl => exact .refl _
  | next _ h ih => exact ih.next h.1

theorem among_step {l : Label n C} (h : s.exec sm l = some u) (hw : Within A s l) :
    Reaches (among sm A) s u := .next (.refl s) ⟨h, hw⟩

theorem round_among {L p : Fin n} (hL : L ∈ A) (hp : p ∈ A) (h : round sm L p s = some u) :
    Reaches (among sm A) s u := by
  obtain ⟨x, hx, hrest⟩ := Option.bind_eq_some_iff.mp h
  have hsend : Reaches (among sm A) s x := among_step hx ⟨hL, hp⟩
  have hnew : x = s ∨ ∃ r, x = { s with rpcs := r :: s.rpcs } ∧ r.caller = L ∧ r.target = p := by
    cases exec_spec hx with
    | skipReplicate => exact .inl rfl
    | sendAppend => exact .inr ⟨_, rfl, rfl, rfl⟩
    | sendSnapshot => exact .inr ⟨_, rfl, rfl, rfl⟩
  split_ifs at hrest with hlen
  · cases hrest
    exact hsend
  · rcases hnew with rfl | ⟨r, rfl, rfl, rfl⟩
    · exact absurd rfl hlen
    obtain ⟨y, hy, hreply⟩ := Option.bind_eq_some_iff.mp hrest
    obtain ⟨r', call, rf', hr', _, rfl⟩ := handle_spec hy
    cases hr'
    exact (hsend.next ⟨hy, r, rfl, hL, hp⟩).next ⟨hreply, _, rfl, hL, hp⟩

section logs

def lastTerm (rf : Raft n C S) : ℕ := ((rf.entryAt rf.lastLogIndex).map LogEntry.term).getD 0

/-- The test of `RequestVote`: the log of `a` is at least as up to date as that of `b`. -/
def AtLeast (a b : Raft n C S) : Prop :=
  lastTerm b < lastTerm a ∨ (lastTerm a = lastTerm b ∧ b.lastLogIndex ≤ a.lastLogIndex)

structure SameLog (a b : Raft n C S) : Prop where
  log : b.log = a.log
  base : b.lastIncludedIndex = a.lastIncludedIndex

theorem SameLog.refl (a : Raft n C S) : SameLog a a := ⟨rfl, rfl⟩

theorem SameLog.trans {a b c : Raft n C S} (h : SameLog a b) (h' : SameLog b c) : SameLog a c :=
  ⟨h'.log.trans h.log, h'.base.trans h.base⟩

theorem SameLog.lastLogIndex {a b : Raft n C S} (h : SameLog a b) :
    b.lastLogIndex = a.lastLogIndex := by
  simp [Raft.lastLogIndex, h.log, h.base]

theorem SameLog.lastTerm {a b : Raft n C S} (h : SameLog a b) : lastTerm b = lastTerm a := by
  simp [RaftElection.lastTerm, Raft.entryAt, Raft.offset, h.lastLogIndex, h.log, h.base]

theorem AtLeast.congr {a b c d : Raft n C S} (h : AtLeast a b) (ha : SameLog a c)
    (hb : SameLog b d) : AtLeast c d := by
  unfold AtLeast at *
  rw [ha.lastTerm, hb.lastTerm, ha.lastLogIndex, hb.lastLogIndex]
  exact h

theorem exists_atLeast (s : Cluster n C S) (hA : A.Nonempty) :
    ∃ c ∈ A, ∀ p ∈ A, AtLeast (s.procs c).rf (s.procs p).rf := by
  obtain ⟨c, hc, hmax⟩ := A.exists_max_image
    (fun p => toLex (lastTerm (s.procs p).rf, (s.procs p).rf.lastLogIndex)) hA
  refine ⟨c, hc, fun p hp => ?_⟩
  have h := Prod.Lex.le_iff.mp (hmax p hp)
  simp only [ofLex_toLex] at h
  exact h.imp_right fun h => ⟨h.1.symm, h.2⟩

end logs

section campaign
variable {c : Fin n}

structure Campaigns (s u : Cluster n C S) (c : Fin n) (t : ℕ) : Prop where
  candidate : (u.procs c).rf.state = .candidate
  term : (u.procs c).rf.currentTerm = t
  votes : (u.procs c).votes t = 1
  poll : ∀ v, v ≠ c → (u.procs c).poll t v = .spawned
  log : SameLog (s.procs c).rf (u.procs c).rf
  others : ∀ q, q ≠ c → u.procs q = s.procs q

variable (sm) in
theorem campaign_once (hc : c ∈ A) (hs : (s.procs c).rf.state ≠ .leader) :
    ∃ u, Reaches (among sm A) s u ∧ Campaigns s u c ((s.procs c).rf.currentTerm + 1) := by
  have htick : s.exec sm (.tick c) = some (s.setProc c { s.procs c with shouldStart := true }) := by
    simp [Cluster.exec, hs]
  have hstart := show Cluster.exec sm (s.setProc c { s.procs c with shouldStart := true })
      (.startElection c) = some _ by
    simp only [Cluster.exec, Cluster.setProc, Function.update_self, if_true]
    rfl
  refine ⟨_, (among_step htick hc).next ⟨hstart, hc⟩, ?_⟩
  constructor
  · simp [Raft.startElection, Raft.persist]
  · simp [Raft.startElection, Raft.persist]
  · simp [Raft.startElection, Raft.persist]
  · intro v hv
    simp [Raft.startElection, Raft.persist, hv]
  · simp only [Function.update_self]
    exact ⟨rfl, rfl⟩
  · intro q hq
    simp [hq]

variable (sm) in
theorem campaign (hc : c ∈ A) (hs : (s.procs c).rf.state ≠ .leader) (k : ℕ) :
    ∃ u, Reaches (among sm A) s u ∧ Campaigns s u c ((s.procs c).rf.currentTerm + k + 1) := by
  induction k with
  | zero => exact campaign_once sm hc hs
  | succ k ih =>
    obtain ⟨u, hu, hcamp⟩ := ih
    obtain ⟨v, hv, hcamp'⟩ := campaign_once sm (s := u) hc (by simp [hcamp.candidate])
    rw [hcamp.term] at hcamp'
    exact ⟨v, hu.trans hv, { hcamp' with
      log := hcamp.log.trans hcamp'.log
      others := fun q hq => (hcamp'.others q hq).trans (hcamp.others q hq) }⟩

end campaign

section ballot
variable {c v : Fin n} {t k : ℕ}

theorem requestVote_grants {rf : Raft n C S} (hpos : 0 < rf.log.length)
    {args : RequestVoteArgs n} (hlt : rf.currentTerm < args.term)
    (hup : lastTerm rf < args.lastLogTerm ∨
      (args.lastLogTerm = lastTerm rf ∧ rf.lastLogIndex ≤ args.lastLogIndex)) :
    rf.requestVote args =
      some ({ rf.toFollower args.term with votedFor := some args.candidateId }.persist,
        ⟨args.term, true⟩) := by
  obtain ⟨last, hlast⟩ := entryAt_last hpos
  have hterm : last.term = lastTerm rf := by simp [lastTerm, hlast]
  have hentry : (rf.toFollower args.term).entryAt (rf.toFollower args.term).lastLogIndex =
      some last := hlast
  rw [← hterm] at hup
  unfold Raft.requestVote Raft.observeTerm
  simp only [if_pos hlt, hentry]
  rw [if_neg (show ¬ args.term < (rf.toFollower args.term).currentTerm from Nat.lt_irrefl _)]
  simp only [Option.bind_eq_bind, Option.bind_some]
  rw [if_neg (show ¬ ¬ (last.term < args.lastLogTerm ∨ (args.lastLogTerm = last.term ∧
    (rf.toFollower args.term).lastLogIndex ≤ args.lastLogIndex)) from not_not.mpr hup),
    if_pos (.inl rfl)]
  rfl

variable (sm) in
theorem ask (hc : c ∈ A) (hv : v ∈ A) (hne : v ≠ c) {args : RequestVoteArgs n}
    (hterm : args.term = t) (hpoll : (s.procs c).poll t v = .spawned)
    (hrequest : (s.procs c).rf.voteRequest t = some (some args)) {rf' : Raft n C S}
    {reply : RequestVoteReply} (hanswer : (s.procs v).rf.requestVote args = some (rf', reply)) :
    ∃ u, Reaches (among sm A) s u ∧
      ((u.procs c).rf, (u.procs c).votes t) =
        (s.procs c).rf.voteReply t ((s.procs c).votes t) reply ∧
      (∀ w, w ≠ v → (u.procs c).poll t w = (s.procs c).poll t w) ∧ (u.procs v).rf = rf' ∧
      ∀ q, q ≠ c → q ≠ v → u.procs q = s.procs q := by
  subst hterm
  let x := s.procs c
  let y := { x with
    poll := Function.update x.poll args.term (Function.update (x.poll args.term) v .calling) }
  let asked : Cluster n C S := { s.setProc c y with
    rpcs := ⟨c, x.epoch, v, .requestVote args none⟩ :: s.rpcs }
  let answered : Cluster n C S := { asked.setRaft v rf' with
    rpcs := ⟨c, x.epoch, v, .requestVote args (some reply)⟩ :: s.rpcs }
  have hsend : s.exec sm (.sendRequestVote c args.term v) = some asked := by
    simp only [Cluster.exec, Cluster.sendRequestVote, hpoll, hrequest, ne_eq, not_true_eq_false,
      if_false, Option.bind_eq_bind, Option.bind_some]
    rfl
  have hhandle : asked.exec sm (.handle 0) = some answered := by
    simp only [Cluster.exec, Cluster.handle, asked, List.getElem?_cons_zero, Option.bind_eq_bind,
      Option.bind_some, Cluster.setProc, Function.update_of_ne hne, hanswer]
    simp [answered, asked, Cluster.setRaft, Cluster.setProc, hne]
  have hy : answered.procs c = y := by
    simp [answered, asked, Cluster.setRaft, Cluster.setProc, hne.symm]
  have hreply : answered.exec sm (.reply 0) = some { answered.setProc c (y.finishPoll args.term v
      (x.rf.voteReply args.term (x.votes args.term) reply).1
      (x.rf.voteReply args.term (x.votes args.term) reply).2) with rpcs := s.rpcs } := by
    have hget : answered.rpcs[0]? = some ⟨c, x.epoch, v, .requestVote args (some reply)⟩ := rfl
    simp only [Cluster.exec, Cluster.reply, hget, Option.bind_eq_bind, Option.bind_some, hy]
    rw [if_neg (not_not.mpr rfl), if_neg (by simp [y])]
    rfl
  refine ⟨_, ((among_step hsend ⟨hc, hv⟩).next ⟨hhandle, _, rfl, hc, hv⟩).next
    ⟨hreply, _, rfl, hc, hv⟩, ?_, ?_, ?_, ?_⟩
  · simp [Proc.finishPoll, Cluster.setProc, x]
  · intro w hw
    simp [Proc.finishPoll, Cluster.setProc, y, x, hw]
  · simp [Cluster.setProc, Cluster.setRaft, answered, hne]
  · intro q hqc hqv
    simp [Cluster.setProc, Cluster.setRaft, answered, asked, hqc, hqv]

structure Balloted (s u : Cluster n C S) (c v : Fin n) (t k : ℕ) : Prop where
  logs : ∀ q, SameLog (s.procs q).rf (u.procs q).rf
  others : ∀ q, q ≠ c → q ≠ v → u.procs q = s.procs q
  joined : (u.procs v).rf.currentTerm = t
  term : (u.procs c).rf.currentTerm = t
  votes : (u.procs c).votes t = k + 1
  poll : ∀ w, w ≠ v → (u.procs c).poll t w = (s.procs c).poll t w
  won : n / 2 < k + 1 → (u.procs c).rf.state = .leader ∧
    ∀ q, (u.procs c).rf.nextIndex q = (u.procs c).rf.lastLogIndex + 1
  open_ : ¬ n / 2 < k + 1 → (u.procs c).rf.state = .candidate

variable (sm) in
theorem ballot (hc : c ∈ A) (hv : v ∈ A) (hne : v ≠ c) (hme : (s.procs c).rf.me = c)
    (hposc : 0 < (s.procs c).rf.log.length) (hposv : 0 < (s.procs v).rf.log.length)
    (hstate : (s.procs c).rf.state = .candidate) (hterm : (s.procs c).rf.currentTerm = t)
    (hvotes : (s.procs c).votes t = k) (hpoll : (s.procs c).poll t v = .spawned)
    (hlt : (s.procs v).rf.currentTerm < t) (hup : AtLeast (s.procs c).rf (s.procs v).rf) :
    ∃ u, Reaches (among sm A) s u ∧ Balloted s u c v t k := by
  obtain ⟨last, hlast⟩ := entryAt_last hposc
  have hlastTerm : last.term = lastTerm (s.procs c).rf := by simp [lastTerm, hlast]
  have hrequest : (s.procs c).rf.voteRequest t =
      some (some ⟨t, c, (s.procs c).rf.lastLogIndex, last.term⟩) := by
    simp [Raft.voteRequest, hterm, hstate, hlast, hme]
  have hgrant : (s.procs v).rf.requestVote ⟨t, c, (s.procs c).rf.lastLogIndex, last.term⟩ = _ :=
    requestVote_grants hposv hlt (by rw [hlastTerm]; exact hup)
  obtain ⟨u, hu, hcount, hpolls, hvoter, hothers⟩ :=
    ask sm hc hv hne (t := t) rfl hpoll hrequest hgrant
  have hreply : (s.procs c).rf.voteReply t k ⟨t, true⟩ =
      (if n / 2 < k + 1 then (s.procs c).rf.becomeLeader t else (s.procs c).rf, k + 1) := by
    unfold Raft.voteReply
    simp only [hterm, hstate, Nat.lt_irrefl, if_false, ne_eq, not_true_eq_false, or_self, if_true]
    split_ifs <;> rfl
  rw [hvotes, hreply] at hcount
  obtain ⟨hrf, hcounted⟩ := Prod.mk.inj hcount
  have hbecome : (s.procs c).rf.becomeLeader t = { (s.procs c).rf with
      state := .leader
      nextIndex := fun _ => (s.procs c).rf.lastLogIndex + 1
      matchIndex := fun i => if i = (s.procs c).rf.me then (s.procs c).rf.lastLogIndex else 0 } := by
    unfold Raft.becomeLeader
    rw [if_neg (by simp [hstate, hterm])]
  have hlog : SameLog (s.procs c).rf (u.procs c).rf := by
    rw [hrf]
    split_ifs
    · rw [hbecome]
      exact ⟨rfl, rfl⟩
    · exact SameLog.refl _
  refine ⟨u, hu, ?_, hothers, by rw [hvoter]; rfl, ?_, hcounted, hpolls, ?_, ?_⟩
  · intro q
    by_cases hqc : q = c
    · rw [hqc]
      exact hlog
    · by_cases hqv : q = v
      · rw [hqv, hvoter]
        exact ⟨rfl, rfl⟩
      · rw [hothers q hqc hqv]
        exact SameLog.refl _
  · rw [hrf]
    split_ifs
    · rw [hbecome]
      exact hterm
    · exact hterm
  · intro hwon
    rw [hlog.lastLogIndex, hrf, if_pos hwon, hbecome]
    exact ⟨rfl, fun _ => rfl⟩
  · intro hopen
    rw [hrf, if_neg hopen]
    exact hstate

structure Elected (s : Cluster n C S) (c : Fin n) (t : ℕ) : Prop where
  leads : (s.procs c).rf.state = .leader
  term : (s.procs c).rf.currentTerm = t
  next : ∀ q, (s.procs c).rf.nextIndex q = (s.procs c).rf.lastLogIndex + 1

/-- `c` is a candidate of term `t` with `k` votes and still has to ask the peers of `vs`. -/
structure Polling (s : Cluster n C S) (c : Fin n) (t k : ℕ) (vs : List (Fin n)) : Prop where
  candidate : (s.procs c).rf.state = .candidate
  term : (s.procs c).rf.currentTerm = t
  votes : (s.procs c).votes t = k
  few : k ≤ n / 2
  poll : ∀ v ∈ vs, (s.procs c).poll t v = .spawned
  lower : ∀ v ∈ vs, (s.procs v).rf.currentTerm < t
  upToDate : ∀ v ∈ vs, AtLeast (s.procs c).rf (s.procs v).rf

/-- The peers are asked one after the other, until there are votes enough. -/
theorem poll_elects (run : Run (cluster n sm) tr s) (hc : c ∈ A) {vs : List (Fin n)}
    (hvs : ∀ v ∈ vs, v ∈ A ∧ v ≠ c) (hnodup : vs.Nodup) (hpoll : Polling s c t k vs)
    (hmany : n / 2 < k + vs.length) (hA : ∀ p ∈ A, (s.procs p).rf.currentTerm ≤ t) :
    ∃ u, Reaches (among sm A) s u ∧ Elected u c t ∧ ∀ p ∈ A, (u.procs p).rf.currentTerm ≤ t := by
  induction vs generalizing s k tr with
  | nil =>
    have := hpoll.few
    simp at hmany
    omega
  | cons v vs ih =>
    obtain ⟨hv, hne⟩ := hvs v List.mem_cons_self
    have hfresh := List.nodup_cons.mp hnodup
    obtain ⟨g, hi, _⟩ := RaftSafety.visits_inv run
    have hpos : ∀ q, 0 < (s.procs q).rf.log.length := fun q =>
      (RaftInv.inBounds (hi.procs q).raft).length_pos
    obtain ⟨u, hu, hb⟩ := ballot sm hc hv hne (hi.procs c).raft.me (hpos c) (hpos v)
      hpoll.candidate hpoll.term hpoll.votes (hpoll.poll v List.mem_cons_self)
      (hpoll.lower v List.mem_cons_self) (hpoll.upToDate v List.mem_cons_self)
    have hA' : ∀ p ∈ A, (u.procs p).rf.currentTerm ≤ t := by
      intro p hp
      by_cases hpc : p = c
      · rw [hpc, hb.term]
      · by_cases hpv : p = v
        · rw [hpv, hb.joined]
        · rw [hb.others p hpc hpv]
          exact hA p hp
    by_cases hwon : n / 2 < k + 1
    · obtain ⟨hleads, hnext⟩ := hb.won hwon
      exact ⟨u, hu, ⟨hleads, hb.term, hnext⟩, hA'⟩
    · obtain ⟨new, run'⟩ := among_run run hu
      have hrest : ∀ w ∈ vs, w ≠ c ∧ w ≠ v := fun w hw =>
        ⟨(hvs w (List.mem_cons_of_mem _ hw)).2, fun h => hfresh.1 (h ▸ hw)⟩
      have hpoll' : Polling u c t (k + 1) vs :=
        { candidate := hb.open_ hwon
          term := hb.term
          votes := hb.votes
          few := by omega
          poll := fun w hw => by
            rw [hb.poll w (hrest w hw).2]
            exact hpoll.poll w (List.mem_cons_of_mem _ hw)
          lower := fun w hw => by
            rw [hb.others w (hrest w hw).1 (hrest w hw).2]
            exact hpoll.lower w (List.mem_cons_of_mem _ hw)
          upToDate := fun w hw =>
            (hpoll.upToDate w (List.mem_cons_of_mem _ hw)).congr (hb.logs c) (hb.logs w) }
      obtain ⟨x, hx, rest⟩ := ih run' (fun w hw => hvs w (List.mem_cons_of_mem _ hw)) hfresh.2
        hpoll' (by simp only [List.length_cons] at hmany; omega) hA'
      exact ⟨x, hu.trans hx, rest⟩

end ballot

section stepDown
variable {L p : Fin n} {l f l' f' : Raft n C S} {accepted : Bool}

theorem replicateOnce_cases {msg : Replication n C S} (h : l.replicateOnce p = some (some msg)) :
    msg = .snapshot ⟨l.currentTerm, l.me, l.lastIncludedIndex, l.lastIncludedTerm, l.snapshot⟩ ∨
    ∃ entries prev, l.entriesAfter (l.nextIndex p - 1) = some entries ∧
      l.entryAt (l.nextIndex p - 1) = some prev ∧
      msg = .append ⟨l.currentTerm, l.me, l.nextIndex p - 1, prev.term, entries, l.commitIndex⟩ := by
  unfold Raft.replicateOnce at h
  dsimp only at h
  split_ifs at h
  · cases h
  · cases h
    exact .inl rfl
  · cases h
  · obtain ⟨entries, hentries, h⟩ := Option.bind_eq_some_iff.mp h
    obtain ⟨prev, hprev, h⟩ := Option.bind_eq_some_iff.mp h
    cases h
    exact .inr ⟨entries, prev, hentries, hprev, rfl⟩

structure Followed (l f f' : Raft n C S) : Prop where
  state : f'.state = .follower
  applied : f'.lastApplied = f.lastApplied
  base : f'.lastIncludedIndex ≤ max f.lastIncludedIndex l.lastIncludedIndex

theorem exchange_followed (h : Exchange l f p l' f' accepted)
    (hterm : f.currentTerm ≤ l.currentTerm) : Followed l f f' := by
  cases h with
  | append args reply sent answer done =>
    rcases replicateOnce_cases sent with hmsg | ⟨_, _, _, _, hmsg⟩
    · cases hmsg
    cases hmsg
    obtain ⟨hstate, _, happlied, hbase⟩ := appendEntries_frame answer hterm
    exact ⟨hstate, happlied, by omega⟩
  | snapshot args reply sent answer done =>
    rcases replicateOnce_cases sent with hmsg | ⟨_, _, _, _, hmsg⟩
    · cases hmsg
      rcases installSnapshot_cases answer with ⟨hlt, _⟩ | ⟨_, _, rfl⟩ | ⟨_, _, newLog, _, rfl⟩
      · exact absurd hlt (not_lt.mpr hterm)
      · exact ⟨follow_state, follow_applied f _, by rw [follow_base]; exact le_max_left _ _⟩
      · obtain ⟨_, hstate, _, happlied⟩ := install_frame (f.follow l.currentTerm) _ newLog
        refine ⟨hstate.trans follow_state, happlied.trans (follow_applied f _), ?_⟩
        rw [install_base]
        exact le_max_right _ _
    · cases hmsg

theorem exchange_exists {X Y : List (LogEntry C)} (h : Link X Y l f p) :
    ∃ l' f' accepted, Exchange l f p l' f' accepted ∧ Kept l l' f' := by
  by_cases hr : InReach p l f
  · rcases turn_inReach h hr with ⟨l', f', hx, hk, _⟩ | ⟨l', f', hx, hk, _⟩
    · exact ⟨l', f', true, hx, hk⟩
    · exact ⟨l', f', false, hx, hk⟩
  · obtain ⟨l', f', hx, hk, _⟩ := turn_outOfReach h hr
    exact ⟨l', f', false, hx, hk⟩

theorem round_ends (run : Run (cluster n sm) tr s) (hL : L ∈ A) (hp : p ∈ A) (hne : p ≠ L)
    (hlead : (s.procs L).rf.state = .leader)
    (hterm : (s.procs p).rf.currentTerm ≤ (s.procs L).rf.currentTerm) :
    ∃ u, Reaches (among sm A) s u ∧ (u.procs p).rf.state = .follower := by
  obtain ⟨X, Y, hlink⟩ := link_of_run run hlead hterm
  obtain ⟨l', f', accepted, hx, _⟩ := exchange_exists hlink
  refine ⟨_, round_among hL hp (round_of_exchange hne hx), ?_⟩
  simp [Cluster.setRaft, Cluster.setProc, hne, (exchange_followed hx hterm).state]

/-- Two leaders are leaders of different terms, so one of them can be told to step down. -/
theorem exists_nonleader (run : Run (cluster n sm) tr s) (hA : 1 < A.card) :
    ∃ u, Reaches (among sm A) s u ∧ ∃ q ∈ A, (u.procs q).rf.state ≠ .leader := by
  by_cases hall : ∃ q ∈ A, (s.procs q).rf.state ≠ .leader
  · exact ⟨s, .refl s, hall⟩
  · have hlead : ∀ q ∈ A, (s.procs q).rf.state = .leader := fun q hq => by
      by_contra h
      exact hall ⟨q, hq, h⟩
    obtain ⟨a, ha, b, hb, hab⟩ := Finset.one_lt_card.mp hA
    rcases le_total (s.procs a).rf.currentTerm (s.procs b).rf.currentTerm with hle | hle
    · obtain ⟨u, hu, hstate⟩ := round_ends run hb ha hab (hlead b hb) hle
      exact ⟨u, hu, a, ha, by simp [hstate]⟩
    · obtain ⟨u, hu, hstate⟩ := round_ends run ha hb hab.symm (hlead a ha) hle
      exact ⟨u, hu, b, hb, by simp [hstate]⟩

theorem voteReply_log (rf : Raft n C S) (t votes : ℕ) (reply : RequestVoteReply) :
    SameLog rf (rf.voteReply t votes reply).1 := by
  unfold Raft.voteReply Raft.becomeLeader
  split_ifs <;> exact ⟨rfl, rfl⟩

theorem requestVote_lower {rf rf' : Raft n C S} {args : RequestVoteArgs n}
    {reply : RequestVoteReply} (h : rf.requestVote args = some (rf', reply))
    (hlt : rf.currentTerm < args.term) : rf'.state = .follower ∧ SameLog rf rf' := by
  have hobs : rf.observeTerm args.term = rf.toFollower args.term := if_pos hlt
  rcases requestVote_cases h with ⟨_, rfl⟩ | ⟨_, _, _, _, rfl⟩ <;> rw [hobs] <;>
    exact ⟨rfl, rfl, rfl⟩

theorem request_ends (run : Run (cluster n sm) tr s) {c q : Fin n} (hc : c ∈ A) (hq : q ∈ A)
    (hne : c ≠ q) (hstate : (s.procs q).rf.state ≠ .leader) :
    ∃ u, Reaches (among sm A) s u ∧ (u.procs c).rf.state = .follower ∧
      ∀ p, SameLog (s.procs p).rf (u.procs p).rf := by
  obtain ⟨x, hx, hcamp⟩ := campaign sm hq hstate (s.procs c).rf.currentTerm
  obtain ⟨new, run'⟩ := among_run run hx
  obtain ⟨g, hi, _⟩ := RaftSafety.visits_inv run'
  have hpos : ∀ q, 0 < (x.procs q).rf.log.length := fun q =>
    (RaftInv.inBounds (hi.procs q).raft).length_pos
  obtain ⟨last, hlast⟩ := entryAt_last (hpos q)
  have hrequest : (x.procs q).rf.voteRequest
      ((s.procs q).rf.currentTerm + (s.procs c).rf.currentTerm + 1) =
        some (some ⟨(s.procs q).rf.currentTerm + (s.procs c).rf.currentTerm + 1, q,
          (x.procs q).rf.lastLogIndex, last.term⟩) := by
    simp only [Raft.voteRequest, hcamp.term, hcamp.candidate, ne_eq, not_true_eq_false, or_self,
      if_false, hlast, Option.bind_eq_bind, Option.bind_some, (hi.procs q).raft.me]
  obtain ⟨⟨rf', reply⟩, hanswer⟩ := Option.isSome_iff_exists.mp
    (requestVote_some (hpos c) ⟨(s.procs q).rf.currentTerm + (s.procs c).rf.currentTerm + 1, q,
      (x.procs q).rf.lastLogIndex, last.term⟩)
  obtain ⟨hfoll, hlog⟩ := requestVote_lower hanswer (by
    rw [hcamp.others c hne]
    dsimp only
    omega)
  obtain ⟨u, hu, hcount, _, hvoter, hothers⟩ :=
    ask sm hq hc hne rfl (hcamp.poll c hne) hrequest hanswer
  refine ⟨u, hx.trans hu, by rw [hvoter]; exact hfoll, fun p => ?_⟩
  have hsame : SameLog (s.procs p).rf (x.procs p).rf := by
    by_cases hpq : p = q
    · rw [hpq]
      exact hcamp.log
    · rw [hcamp.others p hpq]
      exact SameLog.refl _
  refine hsame.trans ?_
  by_cases hpq : p = q
  · rw [hpq, (Prod.mk.inj hcount).1]
    exact voteReply_log _ _ _ _
  · by_cases hpc : p = c
    · rw [hpc, hvoter]
      exact hlog
    · rw [hothers p hpq hpc]
      exact SameLog.refl _

/-- A peer with the most up to date log of `A` that does not lead. -/
theorem exists_candidate (run : Run (cluster n sm) tr s) (hA : 1 < A.card) :
    ∃ u c, Reaches (among sm A) s u ∧ c ∈ A ∧ (u.procs c).rf.state ≠ .leader ∧
      ∀ p ∈ A, AtLeast (u.procs c).rf (u.procs p).rf := by
  obtain ⟨x, hx, q, hq, hstate⟩ := exists_nonleader run hA
  obtain ⟨new, run'⟩ := among_run run hx
  obtain ⟨c, hc, hmax⟩ := exists_atLeast (A := A) x (Finset.card_pos.mp (by omega))
  by_cases hlead : (x.procs c).rf.state = .leader
  · have hne : c ≠ q := fun h => hstate (h ▸ hlead)
    obtain ⟨u, hu, hfoll, hlogs⟩ := request_ends run' hc hq hne hstate
    exact ⟨u, c, hx.trans hu, hc, by simp [hfoll],
      fun p hp => (hmax p hp).congr (hlogs c) (hlogs p)⟩
  · exact ⟨x, c, hx, hc, hlead, hmax⟩

end stepDown

theorem majority_elects (run : Run (cluster n sm) tr s) (hn : 2 ≤ n) (hA : n / 2 < A.card) :
    ∃ u c t, Reaches (among sm A) s u ∧ c ∈ A ∧ Elected u c t ∧
      (∀ p ∈ A, (s.procs p).rf.currentTerm < t) ∧ ∀ p ∈ A, (u.procs p).rf.currentTerm ≤ t := by
  obtain ⟨x, c, hx, hc, hstate, hmax⟩ := exists_candidate run (A := A) (by omega)
  obtain ⟨g, hi, _⟩ := RaftSafety.visits_inv run
  obtain ⟨y, hy, hcamp⟩ := campaign sm hc hstate
    (A.sup fun p => (x.procs p).rf.currentTerm)
  obtain ⟨new, run'⟩ := among_run run (hx.trans hy)
  have hbelow : ∀ p ∈ A, (x.procs p).rf.currentTerm ≤ A.sup fun p => (x.procs p).rf.currentTerm :=
    fun p hp => Finset.le_sup (f := fun p => (x.procs p).rf.currentTerm) hp
  have hlog : ∀ p, SameLog (x.procs p).rf (y.procs p).rf := by
    intro p
    by_cases hpc : p = c
    · rw [hpc]
      exact hcamp.log
    · rw [hcamp.others p hpc]
      exact SameLog.refl _
  have hmem : ∀ v ∈ (A.erase c).toList, v ∈ A ∧ v ≠ c := by
    intro v hv
    obtain ⟨hne, hv⟩ := Finset.mem_erase.mp (Finset.mem_toList.mp hv)
    exact ⟨hv, hne⟩
  have hlower : ∀ v ∈ A, v ≠ c → (y.procs v).rf.currentTerm <
      (x.procs c).rf.currentTerm + (A.sup fun p => (x.procs p).rf.currentTerm) + 1 := by
    intro v hv hne
    rw [hcamp.others v hne]
    have := hbelow v hv
    omega
  obtain ⟨u, hu, helected, hterms⟩ := poll_elects run' hc hmem (Finset.nodup_toList _)
    { candidate := hcamp.candidate
      term := hcamp.term
      votes := hcamp.votes
      few := by omega
      poll := fun v hv => hcamp.poll v (hmem v hv).2
      lower := fun v hv => hlower v (hmem v hv).1 (hmem v hv).2
      upToDate := fun v hv => (hmax v (hmem v hv).1).congr (hlog c) (hlog v) }
    (by rw [Finset.length_toList, Finset.card_erase_of_mem hc]; omega)
    (fun p hp => by
      by_cases hpc : p = c
      · rw [hpc, hcamp.term]
      · exact (hlower p hp hpc).le)
  refine ⟨u, c, _, (hx.trans hy).trans hu, hc, helected, fun p hp => ?_, hterms⟩
  have hgrow := reaches_term (among_reaches hx) hi p
  have hsup := hbelow p hp
  omega

end DistributedLabs.RaftElection
