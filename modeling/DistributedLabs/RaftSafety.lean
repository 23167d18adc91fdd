import DistributedLabs.RaftRuns

set_option autoImplicit false

/-!
# What every run of a Raft cluster guarantees

Election safety, log matching across compaction, leader completeness and state
machine safety, for any number of peers and any schedule of steps, messages,
crashes and restarts.
-/
namespace DistributedLabs.RaftSafety
open RaftModel RaftCluster RaftShape RaftHistory TermLedger Runs

variable {n : ℕ} {C S : Type} {sm : StateMachine C S} {s : Cluster n C S}
  {tr : List (Transition (Cluster n C S) (Label n C))}

/-- The invariant at every moment of a run, under one history that covers them all. -/
theorem visits_inv (run : Run (cluster n sm) tr s) :
    ∃ g, Inv sm s g ∧ ∀ x, Visits tr s x → ∃ gx, Inv sm x gx ∧ Grows gx g := by
  obtain ⟨lifted, g, hrun, rfl⟩ := run.lift empty observe
  have hrun : Run (recorded n sm) lifted (s, g) := hrun
  refine ⟨g, recorded_inv hrun, ?_⟩
  have moment : ∀ w, Visits lifted (s, g) w → Inv sm w.1 w.2 ∧ Grows w.2 g := by
    intro w hw
    obtain ⟨⟨past, hpast⟩, hreach⟩ := hrun.of_visits hw
    exact ⟨recorded_inv hpast, (recorded_grows hreach (recorded_inv hpast)).1⟩
  rintro x (rfl | ⟨t, ht, rfl⟩)
  · exact ⟨g, moment _ (.inl rfl)⟩
  · obtain ⟨t', ht', rfl⟩ := List.mem_map.mp ht
    exact ⟨t'.pre.2, moment _ (.inr ⟨t', ht', rfl⟩)⟩

def adder : StateMachine ℕ ℕ := ⟨0, fun total c => total + c.getD 0⟩

def first : Fin 3 := 0

def second : Fin 3 := 1

def third : Fin 3 := 2

/-- Two peers: the first leads term 1, commits a command and both deliver it; then the
    second leads term 2. -/
def sample : Option (List (Transition (Cluster 2 ℕ ℕ) (Label 2 ℕ)) × Cluster 2 ℕ ℕ) :=
  replay (Cluster.exec adder) (initial adder) []
    [.tick 0, .startElection 0, .sendRequestVote 0 1 1, .handle 0, .reply 0, .start 0 (some 7),
      .replicateOnce 0 1, .handle 0, .reply 0, .applier 0, .send 0, .replicateOnce 0 1, .handle 0,
      .applier 1, .send 1, .tick 1, .startElection 1, .sendRequestVote 1 2 0, .handle 0, .reply 0]

theorem sample_run {r : List (Transition (Cluster 2 ℕ ℕ) (Label 2 ℕ)) × Cluster 2 ℕ ℕ}
    (h : sample = some r) : Run (cluster 2 adder) r.1 r.2 :=
  Run.replay (fun _ _ _ h => h) _ (.start rfl) h

section election

inductive Grants (t : Transition (Cluster n C S) (Label n C)) (v : Fin n) (term : ℕ) (c : Fin n) :
    Prop where
  | answer (k epoch : ℕ) (caller : Fin n) (args : RequestVoteArgs n) (reply : RequestVoteReply)
      (label : t.label = .handle k)
      (answered : t.post.rpcs[k]? = some ⟨caller, epoch, v, .requestVote args (some reply)⟩)
      (granted : reply.voteGranted = true) (hterm : args.term = term)
      (hc : args.candidateId = c) : Grants t v term c
  | itself (label : t.label = .startElection v) (hterm : (t.post.procs v).rf.currentTerm = term)
      (hc : v = c) : Grants t v term c

theorem Grants.recorded {t : Transition (Cluster n C S) (Label n C)} {v c : Fin n} {term : ℕ}
    {g : History n C} (h : Grants t v term c) (hstep : (cluster n sm).step t.pre t.label t.post)
    (hi : Inv sm t.post g) : ∃ l, g.vote v term = some (c, l) := by
  cases h with
  | answer k epoch caller args reply label answered granted hterm hc =>
    obtain ⟨_, hid, _, _, hvote⟩ := hi.rpcs _ (List.mem_of_getElem? answered)
    rw [← hterm, ← hc, hid]
    exact hvote reply rfl granted
  | itself label hterm hc =>
    subst hc
    rw [← hterm]
    apply (hi.procs v).raft.voter
    change t.pre.exec sm t.label = some t.post at hstep
    rw [label] at hstep
    dsimp only [Cluster.exec] at hstep
    split_ifs at hstep
    have hme := (hi.procs v).raft.me
    rw [← Option.some.inj hstep] at hme ⊢
    simp only [Cluster.setProc, Function.update_self] at hme ⊢
    exact congrArg some hme

def OneLeader (tr : List (Transition (Cluster n C S) (Label n C))) (s : Cluster n C S) : Prop :=
  ∀ x y, Visits tr s x → Visits tr s y → ∀ p q,
    (x.procs p).rf.state = .leader → (y.procs q).rf.state = .leader →
    (x.procs p).rf.currentTerm = (y.procs q).rf.currentTerm → p = q

def OneVote (tr : List (Transition (Cluster n C S) (Label n C))) : Prop :=
  ∀ t ∈ tr, ∀ t' ∈ tr, ∀ v term c c', Grants t v term c → Grants t' v term c' → c = c'

theorem election_safety (run : Run (cluster n sm) tr s) : OneLeader tr s ∧ OneVote tr := by
  obtain ⟨g, _, moment⟩ := visits_inv run
  constructor
  · intro x y hx hy p q hp hq hterm
    obtain ⟨gx, hix, hgx⟩ := moment x hx
    obtain ⟨gy, hiy, hgy⟩ := moment y hy
    obtain ⟨lx, hlx, hwx⟩ := (hix.procs p).raft.leads hp
    obtain ⟨ly, hly, hwy⟩ := (hiy.procs q).raft.leads hq
    obtain ⟨lx', hlx', hwx', _⟩ := hgx.lead _ _ hlx
    obtain ⟨ly', hly', hwy', _⟩ := hgy.lead _ _ hly
    rw [hterm, hly'] at hlx'
    cases hlx'
    exact hwx.symm.trans (hwx'.symm.trans (hwy'.trans hwy))
  · intro t ht t' ht' v term c c' hc hc'
    have vote : ∀ t ∈ tr, ∀ c, Grants t v term c → ∃ l, g.vote v term = some (c, l) := by
      intro t ht c hc
      obtain ⟨gx, hix, hgx⟩ := moment _ (run.visits_post ht)
      obtain ⟨l, hl⟩ := hc.recorded (run.visited ht).2.1 hix
      exact ⟨l, hgx.vote _ _ _ hl⟩
    obtain ⟨l, hl⟩ := vote t ht c hc
    obtain ⟨l', hl'⟩ := vote t' ht' c' hc'
    rw [hl] at hl'
    cases hl'
    rfl

theorem election_safety_sample : ∃ r, sample = some r ∧
    (∃ t ∈ r.1, (t.pre.procs 0).rf.state = .leader ∧ (t.pre.procs 0).rf.currentTerm = 1) ∧
    (r.2.procs 1).rf.state = .leader ∧ OneLeader r.1 r.2 ∧ OneVote r.1 := by
  have hsome : sample.map (fun r => decide
      ((∃ t ∈ r.1, (t.pre.procs 0).rf.state = .leader ∧ (t.pre.procs 0).rf.currentTerm = 1) ∧
        (r.2.procs 1).rf.state = .leader)) = some true := by decide +kernel
  obtain ⟨r, hr, hd⟩ := Option.map_eq_some_iff.mp hsome
  obtain ⟨hfirst, hsecond⟩ := of_decide_eq_true hd
  exact ⟨r, hr, hfirst, hsecond, election_safety (sample_run hr)⟩

end election

section logs

def Holds (rf : Raft n C S) (i : ℕ) (e : LogEntry C) : Prop :=
  rf.lastIncludedIndex < i ∧ rf.entryAt i = some e

theorem Holds.full {rf : Raft n C S} {full : List (LogEntry C)} (hs : Shape full rf) {i : ℕ}
    {e : LogEntry C} (h : Holds rf i e) : full[i - 1]? = some e := by
  rw [← hs.entryAt_above h.1]
  exact h.2

theorem log_matching_take {g : History n C} (hv : Valid LogEntry.term (Majority.quorums n) g)
    {p q : Fin n} {rf rf' : Raft n C S} (hs : Shape (g.log p) rf) (hs' : Shape (g.log q) rf')
    {i : ℕ} {a b : LogEntry C} (ha : Holds rf i a) (hb : Holds rf' i b) (ht : a.term = b.term) :
    (g.log p).take i = (g.log q).take i := by
  have hpos : i - 1 + 1 = i := by
    have := ha.1
    omega
  rw [← hpos]
  exact (hv.backed_log p).matching (hv.backed_log q) (ha.full hs) (hb.full hs') ht

theorem termAt_sorted {g : History n C} (hv : Valid LogEntry.term (Majority.quorums n) g)
    (q : Fin n) (i j : ℕ) (hij : i ≤ j) (hj : j ≤ (g.log q).length) :
    termAt (g.log q) i ≤ termAt (g.log q) j := by
  cases i with
  | zero => exact Nat.zero_le _
  | succ i =>
    obtain ⟨k, rfl⟩ : ∃ k, j = k + 1 := ⟨j - 1, by omega⟩
    have hi := List.getElem?_eq_getElem (show i < (g.log q).length by omega)
    have hk := List.getElem?_eq_getElem (show k < (g.log q).length by omega)
    rw [termAt_of_getElem? hi, termAt_of_getElem? hk]
    exact (hv.backed_log q).sorted hv hi hk (by omega)

theorem log_sorted {g : History n C} (hv : Valid LogEntry.term (Majority.quorums n) g) {p : Fin n}
    {rf : Raft n C S} (hs : Shape (g.log p) rf) :
    rf.log.Pairwise (fun a b => a.term ≤ b.term) := by
  have hb := hv.backed_log p
  rw [hs.log, List.pairwise_cons]
  constructor
  · intro e he
    obtain ⟨j, hj⟩ := List.mem_iff_getElem?.mp he
    rw [List.getElem?_drop] at hj
    have hle := termAt_sorted hv p rf.lastIncludedIndex (rf.lastIncludedIndex + j + 1) (by omega)
      (List.getElem?_eq_some_iff.mp hj).choose
    rw [termAt_of_getElem? hj] at hle
    exact hle
  · rw [List.pairwise_iff_getElem]
    intro i j hi hj hij
    have hgi := List.getElem?_eq_getElem hi
    have hgj := List.getElem?_eq_getElem hj
    rw [List.getElem?_drop] at hgi hgj
    exact hb.sorted hv hgi hgj (by omega)

/-- Entries of one term at one index: the commands, the entries below that both still
    hold and the boundary of one inside the log of the other agree. -/
def LogsMatch (s : Cluster n C S) : Prop :=
  ∀ p q i a b, Holds (s.procs p).rf i a → Holds (s.procs q).rf i b → a.term = b.term →
    a.command = b.command ∧
    (∀ j a' b', j ≤ i → Holds (s.procs p).rf j a' → Holds (s.procs q).rf j b' → a' = b') ∧
    (∀ e, (s.procs p).rf.lastIncludedIndex ≤ i →
      (s.procs q).rf.entryAt (s.procs p).rf.lastIncludedIndex = some e →
      (s.procs p).rf.lastIncludedTerm = e.term)

def TermsOrdered (s : Cluster n C S) : Prop :=
  ∀ p, ((s.procs p).rf.log[0]?).map LogEntry.term = some (s.procs p).rf.lastIncludedTerm ∧
    (s.procs p).rf.log.Pairwise (fun a b => a.term ≤ b.term)

theorem log_matching (run : Run (cluster n sm) tr s) : LogsMatch s ∧ TermsOrdered s := by
  obtain ⟨g, hi, _⟩ := visits_inv run
  constructor
  · intro p q i a b ha hb ht
    have hp := (hi.procs p).raft.shape
    have hq := (hi.procs q).raft.shape
    have htake := log_matching_take hi.valid hp hq ha hb ht
    have same : ∀ j, 0 < j → j ≤ i → (g.log p)[j - 1]? = (g.log q)[j - 1]? := by
      intro j hpos hj
      have hx := congrArg (fun l => l[j - 1]?) htake
      simpa only [List.getElem?_take_of_lt (show j - 1 < i by omega)] using hx
    have agree : ∀ j a' b', j ≤ i → Holds (s.procs p).rf j a' → Holds (s.procs q).rf j b' →
        a' = b' := by
      intro j a' b' hj ha' hb'
      have hx := same j (by have := ha'.1; omega) hj
      rw [ha'.full hp, hb'.full hq] at hx
      exact Option.some.inj hx
    refine ⟨by rw [agree i a b (le_refl _) ha hb], agree, ?_⟩
    intro e hle he
    rw [(hq.of_entryAt he).2.2, hp.baseTerm]
    cases hbase : (s.procs p).rf.lastIncludedIndex with
    | zero => rfl
    | succ j =>
      have hx := same (j + 1) (Nat.succ_pos j) (by omega)
      rw [Nat.add_sub_cancel] at hx
      simp only [termAt, hx]
  · intro p
    have hp := (hi.procs p).raft.shape
    refine ⟨?_, log_sorted hi.valid hp⟩
    rw [hp.log, hp.baseTerm]
    rfl

theorem log_matching_sample : ∃ r, sample = some r ∧
    (r.2.procs 0).rf.log = [⟨0, none⟩, ⟨1, some 7⟩] ∧
    (r.2.procs 1).rf.log = [⟨0, none⟩, ⟨1, some 7⟩] ∧ LogsMatch r.2 ∧ TermsOrdered r.2 := by
  have hsome : sample.map (fun r => decide
      ((r.2.procs 0).rf.log = [⟨0, none⟩, ⟨1, some 7⟩] ∧
        (r.2.procs 1).rf.log = [⟨0, none⟩, ⟨1, some 7⟩])) = some true := by decide +kernel
  obtain ⟨r, hr, hd⟩ := Option.map_eq_some_iff.mp hsome
  obtain ⟨h0, h1⟩ := of_decide_eq_true hd
  exact ⟨r, hr, h0, h1, log_matching (sample_run hr)⟩

end logs

section completeness
variable {w : Cluster n C S × History n C}
  {past : List (Transition (Cluster n C S × History n C) (Label n C))}

/-- `full` is the log of the peer without compaction: above the boundary it stands in
    `rf.log`, up to the boundary it is what the snapshot was made from. -/
structure Uncompacted (sm : StateMachine C S) (full : List (LogEntry C)) (rf : Raft n C S) :
    Prop where
  shape : Shape full rf
  snapshot : rf.snapshot = image sm (full.take rf.lastIncludedIndex)

def SetsCommit (t : Transition (Cluster n C S × History n C) (Label n C)) (p : Fin n)
    (term N : ℕ) : Prop :=
  (t.pre.1.procs p).rf.state = .leader ∧ (t.post.1.procs p).rf.state = .leader ∧
  (t.post.1.procs p).rf.currentTerm = term ∧ (t.pre.1.procs p).rf.commitIndex < N ∧
  (t.post.1.procs p).rf.commitIndex = N

def BecomesLeader (t : Transition (Cluster n C S × History n C) (Label n C)) (q : Fin n)
    (term : ℕ) : Prop :=
  (t.pre.1.procs q).rf.state ≠ .leader ∧ (t.post.1.procs q).rf.state = .leader ∧
  (t.post.1.procs q).rf.currentTerm = term

/-- What was committed in an earlier term is in a leader's log, whichever came first. -/
theorem sealed_in_later {g gx gy : History n C} (hv : Valid LogEntry.term (Majority.quorums n) g)
    (hvy : Valid LogEntry.term (Majority.quorums n) gy) (hgx : Grows gx g) (hgy : Grows gy g)
    {l : List (LogEntry C)} {t t' : ℕ} (hs : Sealed LogEntry.term (Majority.quorums n) gx t l)
    {ld : Leader (Fin n) (LogEntry C)} (hl : gy.lead t' = some ld) (ht : t < t') : l <+: ld.log := by
  obtain ⟨ld', hl', _, hstart, _⟩ := hgy.lead _ _ hl
  have hin : l <+: ld'.start := by
    rcases hs.mono hgx with rfl | ⟨u, k, lu, hu, hc, hlu, hp⟩
    · exact List.nil_prefix
    · exact hp.trans (hc.in_start hv hlu t' ld' (by omega) hl')
  rw [hstart] at hin
  exact hin.trans (hvy.start_initial _ _ hl)

structure Inherits (sm : StateMachine C S)
    (a b : Transition (Cluster n C S × History n C) (Label n C)) (p q : Fin n) (N : ℕ) : Prop where
  source : Uncompacted sm (a.post.2.log p) (a.post.1.procs p).rf
  target : Uncompacted sm (b.post.2.log q) (b.post.1.procs q).rf
  length : N ≤ (a.post.2.log p).length
  entries : ∀ i < N, (b.post.2.log q)[i]? = (a.post.2.log p)[i]?

theorem leader_completeness (run : Run (recorded n sm) past w)
    {a b : Transition (Cluster n C S × History n C) (Label n C)} (ha : a ∈ past) (hb : b ∈ past)
    {p q : Fin n} {T T' N : ℕ} (hc : SetsCommit a p T N) (hl : BecomesLeader b q T') (hT : T < T') :
    Inherits sm a b p q N := by
  have moment : ∀ t ∈ past, Inv sm t.post.1 t.post.2 ∧ Grows t.post.2 w.2 := by
    intro t ht
    obtain ⟨⟨_, hpast⟩, hreach⟩ := run.of_visits (run.visits_post ht)
    exact ⟨recorded_inv hpast, (recorded_grows hreach (recorded_inv hpast)).1⟩
  obtain ⟨hia, hga⟩ := moment a ha
  obtain ⟨hib, hgb⟩ := moment b hb
  have hpa := (hia.procs p).raft
  have hqb := (hib.procs q).raft
  obtain ⟨_, _, hTa, _, hN⟩ := hc
  obtain ⟨_, hlead, hTb⟩ := hl
  obtain ⟨ld, hld, _, hlog⟩ := hqb.leader_log hib.valid hlead
  have hsealed := hpa.committed
  rw [hTa, hN] at hsealed
  rw [hTb] at hld
  have hpre := sealed_in_later (recorded_inv run).valid hib.valid hga hgb hsealed hld hT
  rw [← hlog] at hpre
  refine ⟨⟨hpa.shape, hpa.snapshot⟩, ⟨hqb.shape, hqb.snapshot⟩, hN ▸ hpa.commit_le, ?_⟩
  intro i hi
  have hlen : i < ((a.post.2.log p).take N).length := by
    have := hpa.commit_le
    rw [List.length_take]
    omega
  obtain ⟨r, hr⟩ := hpre
  rw [← hr, List.getElem?_append_left hlen, List.getElem?_take_of_lt hi]

theorem leader_completeness_sample : ∃ past w, Run (recorded 2 adder) past w ∧
    ∃ a ∈ past, ∃ b ∈ past, SetsCommit a 0 1 1 ∧ BecomesLeader b 1 2 ∧ Inherits adder a b 0 1 1 := by
  have hsome : sample.map (fun r => decide (∃ a ∈ r.1, ∃ b ∈ r.1,
      ((a.pre.procs 0).rf.state = .leader ∧ (a.post.procs 0).rf.state = .leader ∧
        (a.post.procs 0).rf.currentTerm = 1 ∧ (a.pre.procs 0).rf.commitIndex < 1 ∧
        (a.post.procs 0).rf.commitIndex = 1) ∧
      ((b.pre.procs 1).rf.state ≠ .leader ∧ (b.post.procs 1).rf.state = .leader ∧
        (b.post.procs 1).rf.currentTerm = 2))) = some true := by decide +kernel
  obtain ⟨r, hr, hd⟩ := Option.map_eq_some_iff.mp hsome
  obtain ⟨a, ha, b, hb, hc, hl⟩ := of_decide_eq_true hd
  obtain ⟨past, g, run, hpast⟩ := (sample_run hr).lift empty observe
  rw [hpast] at ha hb
  obtain ⟨a', ha', rfl⟩ := List.mem_map.mp ha
  obtain ⟨b', hb', rfl⟩ := List.mem_map.mp hb
  exact ⟨past, _, run, a', ha', b', hb', hc, hl,
    leader_completeness run ha' hb' hc hl (by decide)⟩

end completeness

section delivery

theorem decided_agree {g : History n C} (hv : Valid LogEntry.term (Majority.quorums n) g)
    {l m : List (LogEntry C)} (hl : Decided g l) (hm : Decided g m) {j : ℕ} {e f : LogEntry C}
    (he : l[j]? = some e) (hf : m[j]? = some f) : e = f := by
  have hlt := (List.getElem?_eq_some_iff.mp he).choose
  have hlt' := (List.getElem?_eq_some_iff.mp hf).choose
  obtain ⟨t, hl⟩ := hl
  obtain ⟨u, hm⟩ := hm
  rcases hl.comparable hv hm with ⟨r, rfl⟩ | ⟨r, rfl⟩
  · rw [List.getElem?_append_left hlt, he] at hf
    exact Option.some.inj hf
  · rw [List.getElem?_append_left hlt', hf] at he
    exact (Option.some.inj he).symm

theorem command_agrees {g : History n C} (hi : Inv sm s g) {x y : Delivery n C S}
    (hx : x ∈ s.delivered) (hy : y ∈ s.delivered) {i : ℕ} {c c' : Option C}
    (hc : x.msg = .command c i) (hc' : y.msg = .command c' i) : c = c' := by
  have hmx := hi.delivered x hx
  have hmy := hi.delivered y hy
  rw [hc] at hmx
  rw [hc'] at hmy
  obtain ⟨_, l, e, hl, he, rfl⟩ := hmx
  obtain ⟨_, m, f, hm, hf, rfl⟩ := hmy
  rw [decided_agree hi.valid hl hm he hf]

/-- Every entry of a decided log that has been delivered at all was delivered as it stands. -/
theorem decided_delivered {g : History n C} (hi : Inv sm s g) {l : List (LogEntry C)}
    (hl : Decided g l) (hr : Reached s.delivered l.length) {j : ℕ} {e : LogEntry C}
    (he : l[j]? = some e) : ∃ y ∈ s.delivered, y.msg = .command e.command (j + 1) := by
  obtain ⟨y, hy, c, hc⟩ := hr (j + 1) (Nat.succ_pos j) (List.getElem?_eq_some_iff.mp he).choose
  have hmy := hi.delivered y hy
  rw [hc] at hmy
  obtain ⟨_, m, f, hm, hf, rfl⟩ := hmy
  rw [Nat.add_sub_cancel] at hf
  exact ⟨y, hy, by rw [hc, decided_agree hi.valid hl hm he hf]⟩

def CommandsAgree (s : Cluster n C S) : Prop :=
  ∀ x ∈ s.delivered, ∀ y ∈ s.delivered, ∀ i c c', x.msg = .command c i →
    y.msg = .command c' i → c = c'

/-- A delivered snapshot is the state after the commands delivered for the indices up to its own. -/
def SnapshotsSound (sm : StateMachine C S) (s : Cluster n C S) : Prop :=
  ∀ x ∈ s.delivered, ∀ data t i, x.msg = .snapshot data t i →
    ∃ cs : List (Option C), cs.length = i ∧ data = some (cs.foldl sm.apply sm.initial) ∧
      ∀ j c, cs[j]? = some c → ∃ y ∈ s.delivered, y.msg = .command c (j + 1)

theorem state_machine_safety (run : Run (cluster n sm) tr s) :
    CommandsAgree s ∧ SnapshotsSound sm s := by
  obtain ⟨g, hi, _⟩ := visits_inv run
  refine ⟨fun x hx y hy i c c' hc hc' => command_agrees hi hx hy hc hc', ?_⟩
  intro x hx data t i hmsg
  have hm := hi.delivered x hx
  rw [hmsg] at hm
  obtain ⟨_, hreach, l, hdec, rfl, rfl⟩ := hm
  refine ⟨l.map LogEntry.command, by simp, ?_, ?_⟩
  · rw [List.foldl_map]
    rfl
  · intro j c hj
    rw [List.getElem?_map, Option.map_eq_some_iff] at hj
    obtain ⟨e, he, rfl⟩ := hj
    exact decided_delivered hi hdec hreach he

theorem state_machine_safety_sample : ∃ r, sample = some r ∧ r.2.delivered.length = 2 ∧
    CommandsAgree r.2 ∧ SnapshotsSound adder r.2 := by
  have hsome : sample.map (fun r => r.2.delivered.length) = some 2 := by decide +kernel
  obtain ⟨r, hr, hlen⟩ := Option.map_eq_some_iff.mp hsome
  exact ⟨r, hr, hlen, state_machine_safety (sample_run hr)⟩

end delivery
end DistributedLabs.RaftSafety
