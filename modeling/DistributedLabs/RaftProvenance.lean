import DistributedLabs.RaftSafety

set_option autoImplicit false

/-!
# Where the delivered commands come from

Nothing is delivered that was not passed to `Start`. A call of `Start` is known by the
index and the term it returned: no other call returns both, and as long as its peer stays
in the term, whether it still leads or has crashed and come back, the command keeps its
place.
-/
namespace DistributedLabs.RaftProvenance
open RaftModel RaftCluster RaftShape RaftHistory TermLedger Runs

variable {n : ℕ} {C S : Type} {sm : StateMachine C S} {s u : Cluster n C S} {g : History n C}
  {tr : List (Transition (Cluster n C S) (Label n C))}

structure Starts (x : Transition (Cluster n C S) (Label n C)) (p : Fin n) (command : Option C)
    (index term : ℕ) : Prop where
  label : x.label = .start p command
  result : ((x.pre.procs p).rf.start command).2 = ((index : ℤ), term, true)

def startOf : Label n C → Option (Fin n × Option C)
  | .start p c => some (p, c)
  | _ => none

theorem starts_iff (x : Transition (Cluster n C S) (Label n C)) (p : Fin n) (c : Option C)
    (index term : ℕ) : Starts x p c index term ↔
      startOf x.label = some (p, c) ∧ ((x.pre.procs p).rf.start c).2 = ((index : ℤ), term, true) := by
  constructor
  · rintro ⟨hlabel, hresult⟩
    exact ⟨by rw [hlabel]; rfl, hresult⟩
  · rintro ⟨hlabel, hresult⟩
    refine ⟨?_, hresult⟩
    cases hl : x.label <;> rw [hl] at hlabel <;> cases hlabel
    rfl

instance [DecidableEq C] (x : Transition (Cluster n C S) (Label n C)) (p : Fin n) (c : Option C)
    (index term : ℕ) : Decidable (Starts x p c index term) :=
  decidable_of_iff _ (starts_iff x p c index term).symm

theorem start_result_iff (rf : Raft n C S) (c : Option C) (index term : ℕ) :
    (rf.start c).2 = ((index : ℤ), term, true) ↔
      rf.state = .leader ∧ index = rf.lastLogIndex + 1 ∧ term = rf.currentTerm := by
  by_cases hs : rf.state = .leader
  · simp [Raft.start, hs, Raft.persist]
    omega
  · simp [Raft.start, hs]

theorem getElem?_initial {α : Type} {l m : List α} (h : l <+: m) {i : ℕ} {e : α}
    (he : l[i]? = some e) : m[i]? = some e := by
  obtain ⟨r, rfl⟩ := h
  rw [List.getElem?_append_left (List.getElem?_eq_some_iff.mp he).choose]
  exact he

/-- What the leader of `x`'s term had before the entry of `x` was not put there by `y`. -/
def Precedes (g : History n C) (y x : Transition (Cluster n C S) (Label n C)) : Prop :=
  ∀ p q c d i j t t' ld e, Starts y q d j t' → Starts x p c i t → j < i →
    g.lead t = some ld → ld.log[j - 1]? = some e → e.term ≠ t'

structure Accounts (tr : List (Transition (Cluster n C S) (Label n C))) (g : History n C) :
    Prop where
  /-- What a leader has appended was passed to its `Start`. -/
  issued : ∀ t ld i e, g.lead t = some ld → ld.start.length ≤ i → ld.log[i]? = some e →
    ∃ x ∈ tr, Starts x ld.who e.command (i + 1) t
  kept : ∀ x ∈ tr, ∀ p c i t, Starts x p c i t →
    ∃ ld, g.lead t = some ld ∧ ld.who = p ∧ 0 < i ∧ ld.log[i - 1]? = some ⟨t, c⟩
  once : tr.Pairwise fun y x => ∀ p q c d i t, Starts y p c i t → ¬ Starts x q d i t
  order : tr.Pairwise (Precedes g)

section steps

/-- Only `Start` on a leader makes a leader's log longer than it was at its election. -/
theorem observe_lead (g : History n C) (s : Cluster n C S) (l : Label n C) (u : Cluster n C S) :
    (∃ p c, l = .start p c ∧ (s.procs p).rf.state = .leader) ∨
    ∀ t ld, (observe g s l u).lead t = some ld → g.lead t = some ld ∨ ld.log = ld.start := by
  cases l with
  | startElection p =>
    refine .inr fun t ld h => .inl ?_
    have hframe := (castVote_frame (g.advance p (u.procs p).rf.currentTerm) p
      (u.procs p).rf.currentTerm p).2.2.1
    dsimp only [observe] at h
    rwa [hframe] at h
  | handle k =>
    refine .inr fun t ld h => .inl ?_
    dsimp only [observe] at h
    cases hk : u.rpcs[k]? with
    | none => rwa [hk] at h
    | some r =>
      rw [hk] at h
      dsimp only [observeHandled] at h
      split at h
      · split_ifs at h
        · have hframe := (castVote_frame (g.advance r.target (u.procs r.target).rf.currentTerm)
            r.target (u.procs r.target).rf.currentTerm ‹RequestVoteArgs n›.candidateId).2.2.1
          rwa [hframe] at h
        · exact h
      · split_ifs at h <;> exact h
      · split_ifs at h <;> exact h
      · exact h
  | reply k =>
    right
    intro t ld h
    dsimp only [observe] at h
    cases hk : s.rpcs[k]? with
    | none =>
      rw [hk] at h
      exact .inl h
    | some r =>
      rw [hk] at h
      dsimp only [observeReply] at h
      split_ifs at h
      · by_cases ht : t = (u.procs r.caller).rf.currentTerm
        · -- a leader starts with the log it was elected with
          rw [ht, elect_lead_self] at h
          rw [← Option.some.inj h]
          exact .inr rfl
        · rw [elect_lead_of_ne ht] at h
          exact .inl h
      · exact .inl h
  | start p c =>
    by_cases hs : (s.procs p).rf.state = .leader
    · exact .inl ⟨p, c, rfl, hs⟩
    · refine .inr fun t ld h => .inl ?_
      dsimp only [observe] at h
      rwa [if_neg hs] at h
  | tick | sendRequestVote | replicateOnce | lose | snapshot | applier | send | receive
  | restart => exact .inr fun t ld h => .inl h

theorem Accounts.backed (h : Accounts tr g) (hv : Valid LogEntry.term (Majority.quorums n) g)
    {l : List (LogEntry C)} (hl : Backed LogEntry.term g l) {i : ℕ} {e : LogEntry C}
    (he : l[i]? = some e) : ∃ x ∈ tr, ∃ p, Starts x p e.command (i + 1) e.term := by
  obtain ⟨ld, hld, hp⟩ := hl i e he
  have hin : ld.log[i]? = some e := by
    apply getElem?_initial hp
    rw [List.getElem?_take_of_lt (Nat.lt_succ_self i), he]
  have hlow : ld.start.length ≤ i := by
    by_contra hlt
    obtain ⟨r, hr⟩ := hv.start_initial _ _ hld
    rw [← hr, List.getElem?_append_left (by omega)] at hin
    exact Nat.lt_irrefl _ (hv.start_rank _ _ hld e (List.mem_of_getElem? hin))
  obtain ⟨x, hx, hs⟩ := h.issued _ ld i e hld hlow hin
  exact ⟨x, hx, ld.who, hs⟩

theorem Accounts.order_mono (h : Accounts tr g) {g' : History n C} (hg : Grows g g') :
    tr.Pairwise (Precedes g') := by
  refine h.order.imp_of_mem ?_
  intro y x _ hx hpre p q c d i j t t' ld' e hy hs hji hld' he
  obtain ⟨ld, hld, _, _, hlast⟩ := h.kept x hx p c i t hs
  obtain ⟨_, hgrown, _, _, hp⟩ := hg.lead t ld hld
  rw [hld'] at hgrown
  cases hgrown
  have hlt := (List.getElem?_eq_some_iff.mp hlast).choose
  refine hpre p q c d i j t t' ld e hy hs hji hld ?_
  obtain ⟨r, hr⟩ := hp
  rwa [← hr, List.getElem?_append_left (by omega)] at he

theorem Accounts.mono (h : Accounts tr g) {g' : History n C} (hg : Grows g g')
    {y : Transition (Cluster n C S) (Label n C)} (hy : ∀ p c i t, ¬ Starts y p c i t)
    (hl : ∀ t ld, g'.lead t = some ld → g.lead t = some ld ∨ ld.log = ld.start) :
    Accounts (y :: tr) g' where
  issued t ld i e hld hi he := by
    rcases hl t ld hld with hld | hlog
    · obtain ⟨x, hx, hs⟩ := h.issued t ld i e hld hi he
      exact ⟨x, List.mem_cons_of_mem _ hx, hs⟩
    · have := (List.getElem?_eq_some_iff.mp he).choose
      rw [hlog] at this
      omega
  kept x hx p c i t hs := by
    rcases List.mem_cons.mp hx with rfl | hx
    · exact absurd hs (hy p c i t)
    · obtain ⟨ld, hld, hw, hi, he⟩ := h.kept x hx p c i t hs
      obtain ⟨ld', hld', hw', _, hp⟩ := hg.lead t ld hld
      exact ⟨ld', hld', hw'.trans hw, hi, getElem?_initial hp he⟩
  once := List.pairwise_cons.mpr ⟨fun x _ p q c d i t hs => absurd hs (hy p c i t), h.once⟩
  order := List.pairwise_cons.mpr
    ⟨fun x _ p q c d i j t t' _ _ hs => absurd hs (hy q d j t'), h.order_mono hg⟩

/-- A leader's `Start`: the new entry is accounted for by this very call, and its index is
    behind those of all earlier calls in the term. -/
theorem Accounts.start (h : Accounts tr g) (hi : Inv sm s g) {p : Fin n} {c : Option C}
    (hs : (s.procs p).rf.state = .leader) (u : Cluster n C S) :
    Accounts (⟨s, .start p c, u⟩ :: tr) (observe g s (.start p c) u) := by
  have hraft := (hi.procs p).raft
  obtain ⟨ld, hld, hw, hlog⟩ := hraft.leader_log hi.valid hs
  have hindex : (s.procs p).rf.lastLogIndex = ld.log.length := by
    rw [hraft.shape.lastLogIndex, hlog]
  have hobs : observe g s (.start p c) u =
      g.extend p (s.procs p).rf.currentTerm ⟨(s.procs p).rf.currentTerm, c⟩ := if_pos hs
  have this : Starts ⟨s, .start p c, u⟩ p c (ld.log.length + 1) (s.procs p).rf.currentTerm :=
    ⟨rfl, (start_result_iff _ _ _ _).mpr ⟨hs, by rw [hindex], rfl⟩⟩
  have only : ∀ q d i t, Starts ⟨s, .start p c, u⟩ q d i t →
      q = p ∧ d = c ∧ i = ld.log.length + 1 ∧ t = (s.procs p).rf.currentTerm := by
    rintro q d i t ⟨hlabel, hresult⟩
    cases hlabel
    obtain ⟨_, hidx, hterm⟩ := (start_result_iff _ _ _ _).mp hresult
    exact ⟨rfl, rfl, by rw [hidx, hindex], hterm⟩
  have hgrows := grows_extend (c := p) (e := ⟨(s.procs p).rf.currentTerm, c⟩) hi.valid hld
  rw [hobs]
  constructor
  · intro t ld' i e hld' hlow he
    rcases extend_lead_cases hld hld' with ⟨_, hold⟩ | ⟨rfl, rfl⟩
    · obtain ⟨x, hx, hstart⟩ := h.issued t ld' i e hold hlow he
      exact ⟨x, List.mem_cons_of_mem _ hx, hstart⟩
    · dsimp only at he hlow ⊢
      rcases Nat.lt_or_ge i ld.log.length with hlt | hge
      · rw [List.getElem?_append_left hlt] at he
        obtain ⟨x, hx, hstart⟩ := h.issued _ ld i e hld hlow he
        exact ⟨x, List.mem_cons_of_mem _ hx, hstart⟩
      · have hlen := (List.getElem?_eq_some_iff.mp he).choose
        have hlast : i = ld.log.length := by simp at hlen; omega
        subst hlast
        rw [List.getElem?_concat_length] at he
        rw [← Option.some.inj he, hw]
        exact ⟨_, List.mem_cons_self, this⟩
  · intro x hx q d i t hstart
    rcases List.mem_cons.mp hx with rfl | hx
    · obtain ⟨rfl, rfl, rfl, rfl⟩ := only q d i t hstart
      exact ⟨_, extend_lead_self hld, hw, Nat.succ_pos _, by simp⟩
    · obtain ⟨ld', hld', hw', hpos, he⟩ := h.kept x hx q d i t hstart
      obtain ⟨ld'', hld'', hw'', _, hp⟩ := hgrows.lead t ld' hld'
      exact ⟨ld'', hld'', hw''.trans hw', hpos, getElem?_initial hp he⟩
  · refine List.pairwise_cons.mpr ⟨?_, h.once⟩
    intro x hx q q' d d' i t hstart hstart'
    obtain ⟨_, _, rfl, rfl⟩ := only q d i t hstart
    obtain ⟨ld', hld', _, _, he⟩ := h.kept x hx _ _ _ _ hstart'
    rw [hld] at hld'
    cases hld'
    have := (List.getElem?_eq_some_iff.mp he).choose
    omega
  · refine List.pairwise_cons.mpr ⟨?_, h.order_mono hgrows⟩
    -- an entry with the new index and term would have been started before
    intro x hx q q' d d' i j t t' ld' e hstart hs' hji hld' he hterm
    obtain ⟨_, _, rfl, rfl⟩ := only q' d' j t' hstart
    obtain ⟨old, hold, _, _, hlast⟩ := h.kept x hx q d i t hs'
    obtain ⟨_, hgrown, _, _, r, hr⟩ := hgrows.lead t old hold
    rw [hld'] at hgrown
    cases hgrown
    have hlt := (List.getElem?_eq_some_iff.mp hlast).choose
    rw [← hr, List.getElem?_append_left (by omega)] at he
    obtain ⟨z, hz, q'', hsz⟩ := h.backed hi.valid (hi.valid.backed_lead t old hold) he
    obtain ⟨ld', hld', _, _, hin⟩ := h.kept z hz _ _ _ _ hsz
    rw [hterm, hld] at hld'
    cases hld'
    have := (List.getElem?_eq_some_iff.mp hin).choose
    omega

theorem Accounts.step (h : Accounts tr g) (hi : Inv sm s g) {l : Label n C}
    (hstep : s.exec sm l = some u) : Accounts (⟨s, l, u⟩ :: tr) (observe g s l u) := by
  by_cases hl : ∃ p c, l = .start p c ∧ (s.procs p).rf.state = .leader
  · obtain ⟨p, c, rfl, hs⟩ := hl
    exact h.start hi hs u
  · refine h.mono (acts_valid (exec_refines hi hstep).acts hi.valid).2 ?_
      ((observe_lead g s l u).resolve_left hl)
    rintro p c i t ⟨hlabel, hresult⟩
    exact hl ⟨p, c, hlabel, ((start_result_iff _ _ _ _).mp hresult).1⟩

end steps

section runs

theorem accounts_run (run : Run (cluster n sm) tr s) :
    ∃ g, Inv sm s g ∧ Accounts tr g := by
  obtain ⟨lifted, g, hrun, rfl⟩ := run.lift empty observe
  refine ⟨g, recorded_inv hrun, ?_⟩
  have account : ∀ {past : List (Transition (Cluster n C S × History n C) (Label n C))}
      {w : Cluster n C S × History n C}, Run (recorded n sm) past w →
      Accounts (past.map fun t => ⟨t.pre.1, t.label, t.post.1⟩) w.2 := by
    intro past w hpast
    refine hpast.history (I := fun past w =>
      Accounts (past.map fun t => ⟨t.pre.1, t.label, t.post.1⟩) w.2) ?_ ?_
    · rintro w ⟨_, hw⟩
      rw [hw]
      exact ⟨fun t ld i e h => (by cases h), fun x hx => (by cases hx), List.Pairwise.nil,
        List.Pairwise.nil⟩
    · rintro past w l v hw h ⟨hstep, hobs⟩
      rw [hobs]
      exact h.step (recorded_inv hw) hstep
  exact account hrun

theorem Decided.backed (hv : Valid LogEntry.term (Majority.quorums n) g) {l : List (LogEntry C)}
    (hl : Decided g l) : Backed LogEntry.term g l := by
  obtain ⟨t, rfl | ⟨w, k, ld, _, _, hld, hp⟩⟩ := hl
  · exact fun k e he => by simp at he
  · exact (hv.backed_lead w ld hld).restrict (hp.trans (List.take_prefix _ _))

def AllStarted (tr : List (Transition (Cluster n C S) (Label n C))) (s : Cluster n C S) : Prop :=
  ∀ d ∈ s.delivered, ∀ c i, d.msg = .command c i → ∃ x ∈ tr, ∃ p t, Starts x p c i t

/-- No two calls that `Start` accepts return the same index and term. -/
def StartsDiffer (tr : List (Transition (Cluster n C S) (Label n C))) : Prop :=
  tr.Pairwise fun y x => ∀ p q c d i t, Starts y p c i t → ¬ Starts x q d i t

theorem delivered_started (hi : Inv sm s g) (ha : Accounts tr g) {d : Delivery n C S}
    (hd : d ∈ s.delivered) {c : Option C} {i : ℕ} (hmsg : d.msg = .command c i) :
    ∃ x ∈ tr, ∃ p t, Starts x p c i t := by
  have hm := hi.delivered d hd
  rw [hmsg] at hm
  obtain ⟨hpos, l, e, hdec, he, rfl⟩ := hm
  obtain ⟨x, hx, p, hs⟩ := ha.backed hi.valid (Decided.backed hi.valid hdec) he
  rw [Nat.sub_add_cancel hpos] at hs
  exact ⟨x, hx, p, e.term, hs⟩

theorem commands_started (run : Run (cluster n sm) tr s) : AllStarted tr s ∧ StartsDiffer tr := by
  obtain ⟨g, hi, ha⟩ := accounts_run run
  exact ⟨fun d hd c i hmsg => delivered_started hi ha hd hmsg, ha.once⟩

theorem commands_started_sample : ∃ r, RaftSafety.sample = some r ∧
    r.2.delivered.map (fun d => d.peer) = [1, 0] ∧ (∃ x ∈ r.1, Starts x 0 (some 7) 1 1) ∧
    AllStarted r.1 r.2 ∧ StartsDiffer r.1 := by
  have hsome : RaftSafety.sample.map (fun r => decide (r.2.delivered.map (fun d => d.peer) = [1, 0] ∧
      ∃ x ∈ r.1, Starts x 0 (some 7) 1 1)) = some true := by decide +kernel
  obtain ⟨r, hr, hd⟩ := Option.map_eq_some_iff.mp hsome
  obtain ⟨hpeers, hstart⟩ := of_decide_eq_true hd
  exact ⟨r, hr, hpeers, hstart, commands_started (RaftSafety.sample_run hr)⟩

/-- The command is where `Start` put it, unless it has been compacted; and if the peer has
    committed its index, nobody has delivered another command for it or ever will. -/
structure Stays (sm : StateMachine C S) (s : Cluster n C S) (p : Fin n) (c : Option C) (i t : ℕ) :
    Prop where
  within : i ≤ (s.procs p).rf.lastLogIndex
  held : (s.procs p).rf.lastIncludedIndex < i → (s.procs p).rf.entryAt i = some ⟨t, c⟩
  committed : i ≤ (s.procs p).rf.commitIndex → ∀ u, Reaches (cluster n sm) s u →
    ∀ d ∈ u.delivered, ∀ c', d.msg = .command c' i → c' = c

theorem Accounts.log (ha : Accounts tr g) (hi : Inv sm s g)
    {x : Transition (Cluster n C S) (Label n C)} (hx : x ∈ tr) {p : Fin n} {c : Option C}
    {i t : ℕ} (hs : Starts x p c i t) (ht : (s.procs p).rf.currentTerm = t) :
    0 < i ∧ (g.log p)[i - 1]? = some ⟨t, c⟩ := by
  obtain ⟨ld, hld, rfl, hpos, he⟩ := ha.kept x hx p c i t hs
  rw [hi.valid.lead_log t ld hld ((hi.procs ld.who).raft.term.trans ht)]
  exact ⟨hpos, he⟩

theorem Accounts.stays (ha : Accounts tr g) (hi : Inv sm s g)
    {x : Transition (Cluster n C S) (Label n C)} (hx : x ∈ tr) {p : Fin n} {c : Option C}
    {i t : ℕ} (hs : Starts x p c i t) (ht : (s.procs p).rf.currentTerm = t) :
    Stays sm s p c i t := by
  obtain ⟨hpos, he⟩ := ha.log hi hx hs ht
  have hraft := (hi.procs p).raft
  have hlen := (List.getElem?_eq_some_iff.mp he).choose
  refine ⟨?_, ?_, ?_⟩
  · rw [hraft.shape.lastLogIndex]
    omega
  · intro hlow
    rw [hraft.shape.entryAt_above hlow]
    exact he
  · intro hcommit u hu d hd c' hmsg
    have hin : ((g.log p).take (s.procs p).rf.commitIndex)[i - 1]? = some ⟨t, c⟩ := by
      rw [List.getElem?_take_of_lt (by omega)]
      exact he
    -- what is decided stays decided, and a delivery is of something decided
    obtain ⟨g', hi', hg⟩ := reaches_inv hu hi
    have hm := hi'.delivered d hd
    rw [hmsg] at hm
    obtain ⟨_, l, e, hdec, hl, rfl⟩ := hm
    have hdecided : Decided g ((g.log p).take (s.procs p).rf.commitIndex) := ⟨_, hraft.committed⟩
    rw [RaftSafety.decided_agree hi'.valid hdec (hdecided.mono hg) hl hin]

theorem started_stays (run : Run (cluster n sm) tr s)
    {x : Transition (Cluster n C S) (Label n C)} (hx : x ∈ tr) {p : Fin n} {c : Option C}
    {i t : ℕ} (hs : Starts x p c i t) (ht : (s.procs p).rf.currentTerm = t) :
    Stays sm s p c i t := by
  obtain ⟨g, hi, ha⟩ := accounts_run run
  exact ha.stays hi hx hs ht

theorem started_stays_restarted : ∃ r x, replay (Cluster.exec RaftSafety.adder)
      (initial RaftSafety.adder) [] [.tick (0 : Fin 2), .startElection 0, .sendRequestVote 0 1 1,
        .handle 0, .reply 0, .start 0 (some 7), .replicateOnce 0 1, .handle 0, .reply 0, .applier 0,
        .send 0, .restart 0] = some r ∧ x ∈ r.1 ∧ Starts x 0 (some 7) 1 1 ∧
    (r.2.procs 0).rf.currentTerm = 1 ∧ (r.2.procs 0).rf.lastIncludedIndex = 0 ∧
    r.2.delivered.length = 1 ∧ Stays RaftSafety.adder r.2 0 (some 7) 1 1 := by
  have hsome : (replay (Cluster.exec RaftSafety.adder) (initial RaftSafety.adder) []
      [.tick (0 : Fin 2), .startElection 0, .sendRequestVote 0 1 1, .handle 0, .reply 0,
        .start 0 (some 7), .replicateOnce 0 1, .handle 0, .reply 0, .applier 0, .send 0,
        .restart 0]).map (fun r => decide ((∃ x ∈ r.1, Starts x 0 (some 7) 1 1) ∧
        (r.2.procs 0).rf.currentTerm = 1 ∧ (r.2.procs 0).rf.lastIncludedIndex = 0 ∧
        r.2.delivered.length = 1)) = some true := by decide +kernel
  obtain ⟨r, hr, hd⟩ := Option.map_eq_some_iff.mp hsome
  obtain ⟨⟨x, hx, hs⟩, hterm, hbase, hlen⟩ := of_decide_eq_true hd
  exact ⟨r, x, hr, hx, hs, hterm, hbase, hlen,
    started_stays (Run.replay (fun _ _ _ h => h) _ (.start rfl) hr) hx hs hterm⟩

/-- The entries of a log stand in the order in which they were passed to `Start`. -/
theorem Accounts.in_order (ha : Accounts tr g) {l : List (LogEntry C)}
    (hl : Backed LogEntry.term g l) {x y : Transition (Cluster n C S) (Label n C)}
    (hxy : [y, x].Sublist tr) {p q : Fin n} {c d : Option C} {i j t t' : ℕ}
    (hx : Starts x p c i t) (hy : Starts y q d j t') {e f : LogEntry C}
    (he : l[i - 1]? = some e) (ht : e.term = t) (hf : l[j - 1]? = some f) (ht' : f.term = t') :
    i < j := by
  have hpos := ((start_result_iff _ _ _ _).mp hx.result).2.1
  have hpos' := ((start_result_iff _ _ _ _).mp hy.result).2.1
  by_contra hle
  rcases Nat.lt_or_ge j i with hlt | hge
  · obtain ⟨ld, hld, hp⟩ := hl _ e he
    have hin : ld.log[j - 1]? = some f := by
      apply getElem?_initial hp
      rw [List.getElem?_take_of_lt (by omega), hf]
    rw [ht] at hld
    have horder := (List.pairwise_cons.mp (ha.order.sublist hxy)).1 x List.mem_cons_self
    exact horder p q c d i j t t' ld f hy hx hlt hld hin ht'
  · obtain rfl : i = j := by omega
    rw [he] at hf
    cases hf
    rw [ht] at ht'
    subst ht'
    have honce := (List.pairwise_cons.mp (ha.once.sublist hxy)).1 x List.mem_cons_self
    exact honce q p d c i t hy hx

def Holds (s : Cluster n C S) (p : Fin n) (i t : ℕ) : Prop :=
  (s.procs p).rf.lastIncludedIndex < i ∧ ((s.procs p).rf.entryAt i).map LogEntry.term = some t

instance (s : Cluster n C S) (p : Fin n) (i t : ℕ) : Decidable (Holds s p i t) :=
  inferInstanceAs (Decidable (_ ∧ _))

/-- Of two calls of `Start` whose entries are both in the log of some peer, the earlier one has
    the lower index, whichever peers and terms they were made in. -/
def InStartOrder (tr : List (Transition (Cluster n C S) (Label n C))) (s : Cluster n C S) : Prop :=
  ∀ x y q r c d i j t t', [y, x].Sublist tr → Starts x q c i t → Starts y r d j t' →
    ∀ p, Holds s p i t → Holds s p j t' → i < j

theorem log_in_start_order (run : Run (cluster n sm) tr s) : InStartOrder tr s := by
  obtain ⟨g, hi, ha⟩ := accounts_run run
  intro x y q r c d i j t t' hxy hx hy p hold hold'
  have held : ∀ {k u : ℕ}, Holds s p k u → ∃ e, (g.log p)[k - 1]? = some e ∧ e.term = u := by
    intro k u ⟨hlow, hterm⟩
    rw [(hi.procs p).raft.shape.entryAt_above hlow] at hterm
    exact Option.map_eq_some_iff.mp hterm
  obtain ⟨e, he, hte⟩ := held hold
  obtain ⟨f, hf, htf⟩ := held hold'
  exact ha.in_order (hi.valid.backed_log p) hxy hx hy he hte hf htf

theorem log_in_start_order_restarted : ∃ r, replay (Cluster.exec RaftSafety.adder)
      (initial RaftSafety.adder) [] [.tick (0 : Fin 2), .startElection 0, .sendRequestVote 0 1 1,
        .handle 0, .reply 0, .start 0 (some 7), .restart 0, .tick 0, .startElection 0,
        .sendRequestVote 0 2 1, .handle 0, .reply 0, .start 0 (some 5)] = some r ∧
    (∃ x ∈ r.1, Starts x 0 (some 7) 1 1) ∧ (∃ y ∈ r.1, Starts y 0 (some 5) 2 2) ∧
    Holds r.2 0 1 1 ∧ Holds r.2 0 2 2 ∧ InStartOrder r.1 r.2 := by
  have hsome : (replay (Cluster.exec RaftSafety.adder) (initial RaftSafety.adder) []
      [.tick (0 : Fin 2), .startElection 0, .sendRequestVote 0 1 1, .handle 0, .reply 0,
        .start 0 (some 7), .restart 0, .tick 0, .startElection 0, .sendRequestVote 0 2 1,
        .handle 0, .reply 0, .start 0 (some 5)]).map (fun r => decide
        ((∃ x ∈ r.1, Starts x 0 (some 7) 1 1) ∧ (∃ y ∈ r.1, Starts y 0 (some 5) 2 2) ∧
          Holds r.2 0 1 1 ∧ Holds r.2 0 2 2)) = some true := by decide +kernel
  obtain ⟨r, hr, hd⟩ := Option.map_eq_some_iff.mp hsome
  obtain ⟨hx, hy, hfirst, hsecond⟩ := of_decide_eq_true hd
  exact ⟨r, hr, hx, hy, hfirst, hsecond,
    log_in_start_order (Run.replay (fun _ _ _ h => h) _ (.start rfl) hr)⟩

end runs
end DistributedLabs.RaftProvenance
