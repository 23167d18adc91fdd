import DistributedLabs.RaftReplySteps

set_option autoImplicit false

/-! The invariant under the messages: how a handler and a reply step change the cluster. -/
namespace DistributedLabs.RaftHistory
open RaftModel RaftCluster RaftShape TermLedger Runs

variable {n : ℕ} {C S : Type} {sm : StateMachine C S} {g h : History n C} {s u : Cluster n C S}

/-- A step of the cluster keeps the invariant and is a run of the abstract protocol. -/
structure Refines (sm : StateMachine C S) (g : History n C) (u : Cluster n C S)
    (h : History n C) : Prop where
  inv : Inv sm u h
  acts : Relation.ReflTransGen (Act LogEntry.term (Majority.quorums n)) g h

section frame
variable {p : Fin n} {x y : Proc n C S} {rf' : Raft n C S}

theorem Outcome.progress {d : List (Delivery n C S)} (o : Outcome sm d p g h x.rf rf') :
    Progress g h p x { x with rf := rf' } := by
  refine ⟨le_refl _, o.term, ?_, fun _ => o.commit⟩
  intro hc _
  obtain ⟨hs, _, hl⟩ := o.candidate hc
  exact ⟨hs, hl⟩

theorem ProcInv.of_outcome {d : List (Delivery n C S)} (hx : ProcInv sm g d p x)
    (hv : Valid LogEntry.term (Majority.quorums n) g) (o : Outcome sm d p g h x.rf rf') :
    ProcInv sm h d p { x with rf := rf' } := by
  have hg := (acts_valid o.acts hv).2
  refine ⟨o.inv, hx.pollSelf, ?_, ?_, fun y hy => (hx.states y hy).mono hg (fun _ hm => hm),
    fun m hm => (hx.msgs m hm).mono hg (fun _ hm => hm), hx.sent⟩
  · intro hc
    obtain ⟨hs, ht, _⟩ := o.candidate hc
    obtain ⟨A, hA, hall⟩ := hx.tally hs
    dsimp only
    rw [ht]
    refine ⟨A, hA, ?_⟩
    intro v hvA
    obtain ⟨hpoll, l, hl⟩ := hall v hvA
    exact ⟨hpoll, l, hg.vote _ _ _ hl⟩
  · rw [o.applied]
    exact hx.stream

theorem progress_update (hu : ∀ q, q ≠ p → Untouched g h q) (hp : Progress g h p (s.procs p) y)
    (q : Fin n) : Progress g h q (s.procs q) (Function.update s.procs p y q) := by
  by_cases hq : q = p
  · subst hq
    rw [Function.update_self]
    exact hp
  · rw [Function.update_of_ne hq]
    exact ⟨le_refl _, le_refl _, fun hc _ => ⟨hc, (hu q hq).log⟩, fun _ => le_refl _⟩

/-- A step of `p`: the invariant of `p` itself, the new votes, the new messages and
    the new deliveries are what has to be checked. -/
theorem Inv.move {rs : List (Rpc n C S)} {d' : List (Delivery n C S)} (hi : Inv sm s g)
    (ha : Relation.ReflTransGen (Act LogEntry.term (Majority.quorums n)) g h)
    (hu : ∀ q, q ≠ p → Untouched g h q) (hd : s.delivered ⊆ d')
    (hy : ProcInv sm h d' p y) (hp : Progress g h p (s.procs p) y)
    (hvotes : ∀ v t c l, h.vote v t = some (c, l) → g.vote v t = some (c, l) ∨
      (t ≤ (Function.update s.procs p y c).rf.currentTerm ∧
        ((Function.update s.procs p y c).rf.currentTerm = t →
          (Function.update s.procs p y c).rf.state = .candidate →
          UpToDate LogEntry.term (h.log c) l)))
    (hr : ∀ r ∈ rs, r ∈ s.rpcs ∨ RpcInv sm h d' (Function.update s.procs p y) r)
    (hdel : ∀ z ∈ d', z ∈ s.delivered ∨ MsgInv sm h d' z.msg) :
    Refines sm g ⟨Function.update s.procs p y, rs, d'⟩ h := by
  obtain ⟨hv, hg⟩ := acts_valid ha hi.valid
  have hprog := progress_update hu hp
  refine ⟨⟨hv, ?_, ?_, ?_, ?_, ?_⟩, ha⟩
  · intro q
    by_cases hq : q = p
    · subst hq
      dsimp only
      rw [Function.update_self]
      exact hy
    · dsimp only
      rw [Function.update_of_ne hq]
      exact (hi.procs q).mono hg (hu q hq) hd
  · intro v t c l hvote
    rcases hvotes v t c l hvote with hold | ⟨hle, _⟩
    · exact (hi.called v t c l hold).trans (hprog c).term
    · exact hle
  · intro v c l hvote hcand
    rcases hvotes v _ c l hvote with hold | ⟨_, hup⟩
    · have hle := hi.called v _ c l hold
      have heq : (Function.update s.procs p y c).rf.currentTerm = (s.procs c).rf.currentTerm :=
        le_antisymm hle (hprog c).term
      obtain ⟨hc, hlog⟩ := (hprog c).candidate hcand heq
      rw [hlog]
      exact hi.voteUp v c l (heq ▸ hold) hc
    · exact hup rfl hcand
  · intro r hmem
    rcases hr r hmem with hold | hnew
    · exact (hi.rpcs r hold).mono hg hd (hprog r.caller)
    · exact hnew
  · intro z hz
    rcases hdel z hz with hold | hnew
    · exact (hi.delivered z hold).mono hg hd
    · exact hnew

theorem Inv.set_raft {rs : List (Rpc n C S)} (hi : Inv sm s g)
    (o : Outcome sm s.delivered p g h (s.procs p).rf rf')
    (hvotes : ∀ v t c l, h.vote v t = some (c, l) → g.vote v t = some (c, l) ∨
      (t ≤ ((s.setRaft p rf').procs c).rf.currentTerm ∧
        (((s.setRaft p rf').procs c).rf.currentTerm = t →
          ((s.setRaft p rf').procs c).rf.state = .candidate →
          UpToDate LogEntry.term (h.log c) l)))
    (hr : ∀ r ∈ rs, r ∈ s.rpcs ∨ RpcInv sm h s.delivered (s.setRaft p rf').procs r) :
    Refines sm g { s.setRaft p rf' with rpcs := rs } h :=
  hi.move o.acts o.others (fun _ hm => hm) ((hi.procs p).of_outcome hi.valid o) o.progress hvotes hr
    (fun _ hz => .inl hz)

end frame

section handle
variable {k : ℕ} {r : Rpc n C S}

@[simp] theorem setRaft_self (s : Cluster n C S) (p : Fin n) (rf : Raft n C S) :
    ((s.setRaft p rf).procs p).rf = rf := by
  simp [Cluster.setRaft, Cluster.setProc]

/-- The handled request with its reply is the record that `observe` looks at. -/
theorem observe_handle (hk : s.rpcs[k]? = some r) (w : Fin n → Proc n C S) (r' : Rpc n C S) :
    observe g s (.handle k) ⟨w, s.rpcs.set k r', s.delivered⟩ =
      observeHandled g s ⟨w, s.rpcs.set k r', s.delivered⟩ r' := by
  have hlt : k < s.rpcs.length := (List.getElem?_eq_some_iff.mp hk).choose
  simp [observe, List.getElem?_set_self hlt]

theorem inv_requestVote (hi : Inv sm s g) {caller target : Fin n} {epoch : ℕ}
    {args : RequestVoteArgs n} {reply : RequestVoteReply} {rf' : Raft n C S}
    (hk : s.rpcs[k]? = some ⟨caller, epoch, target, .requestVote args none⟩)
    (h : (s.procs target).rf.requestVote args = some (rf', reply)) :
    Refines sm g { s.setRaft target rf' with
        rpcs := s.rpcs.set k ⟨caller, epoch, target, .requestVote args (some reply)⟩ }
      (observe g s (.handle k) { s.setRaft target rf' with
        rpcs := s.rpcs.set k ⟨caller, epoch, target, .requestVote args (some reply)⟩ }) := by
  have hmem := List.mem_of_getElem? hk
  have hrpc := hi.rpcs _ hmem
  obtain ⟨hid, hle, hlast, _⟩ := hrpc.2
  dsimp only at hid hle hlast
  have hobs := observe_handle (g := g) hk (s.setRaft target rf').procs
    ⟨caller, epoch, target, .requestVote args (some reply)⟩
  change Refines sm g _ (observe g s (.handle k) ⟨(s.setRaft target rf').procs, _, s.delivered⟩)
  rw [hobs]
  unfold observeHandled
  dsimp only
  rw [setRaft_self]
  rcases requestVote_outcome hi.valid (hi.procs target).raft h with
    ⟨hno, o⟩ | ⟨hyes, hterm, hfor, hup, o⟩
  · rw [if_neg (by simp [hno])]
    apply hi.set_raft o (fun _ _ _ _ hvote => .inl hvote)
    intro r hr
    rcases List.mem_or_eq_of_mem_set hr with hr | rfl
    · exact .inl hr
    · right
      have hmono := hrpc.mono (acts_valid o.acts hi.valid).2 (fun _ hm => hm)
        (progress_update o.others o.progress caller)
      obtain ⟨he, a, b, c, _⟩ := hmono
      refine ⟨he, a, b, c, ?_⟩
      rintro rep hrep hv
      cases hrep
      rw [hno] at hv
      cases hv
  · rw [if_pos hyes, hterm, hid]
    rw [hid] at o hfor
    have hprog := progress_update o.others o.progress
    have hmono := hrpc.mono (acts_valid o.acts hi.valid).2 (fun _ hm => hm) (hprog caller)
    obtain ⟨he, a, b, c, _⟩ := hmono
    apply hi.set_raft o
    · intro v t cand l hvote
      rcases castVote_vote hvote with hold | ⟨rfl, rfl, hx⟩
      · exact .inl hold
      · cases hx
        refine .inr ⟨b, ?_⟩
        intro ht hs
        obtain ⟨hli, hlt⟩ := c ht hs
        dsimp only at hli hlt
        unfold UpToDate
        rw [← hli, ← hlt]
        exact hup
    · intro r hr
      rcases List.mem_or_eq_of_mem_set hr with hr | rfl
      · exact .inl hr
      · refine .inr ⟨he, a, b, c, ?_⟩
        rintro rep hrep _
        have := o.inv.voter _ hfor
        rw [hterm] at this
        exact this

theorem leaderLog_of_lead {t : ℕ} {ld : Leader (Fin n) (LogEntry C)} (hl : g.lead t = some ld) :
    leaderLog g t = ld.log := by
  simp [leaderLog, hl]

theorem inv_appendEntries (hi : Inv sm s g) {caller target : Fin n} {epoch : ℕ}
    {args : AppendEntriesArgs n C} {reply : AppendEntriesReply} {rf' : Raft n C S}
    (hk : s.rpcs[k]? = some ⟨caller, epoch, target, .appendEntries args none⟩)
    (h : (s.procs target).rf.appendEntries args = some (rf', reply)) :
    Refines sm g { s.setRaft target rf' with
        rpcs := s.rpcs.set k ⟨caller, epoch, target, .appendEntries args (some reply)⟩ }
      (observe g s (.handle k) { s.setRaft target rf' with
        rpcs := s.rpcs.set k ⟨caller, epoch, target, .appendEntries args (some reply)⟩ }) := by
  have hrpc := hi.rpcs _ (List.mem_of_getElem? hk)
  obtain ⟨ld, hf, hlen, hent, hterm, hlc, hsealed, _⟩ := hrpc.2
  have hobs := observe_handle (g := g) hk (s.setRaft target rf').procs
    ⟨caller, epoch, target, .appendEntries args (some reply)⟩
  change Refines sm g _ (observe g s (.handle k) ⟨(s.setRaft target rf').procs, _, s.delivered⟩)
  rw [hobs]
  unfold observeHandled
  dsimp only
  rw [setRaft_self, leaderLog_of_lead hf.lead]
  -- the record in flight keeps what it vouches for and gains the acknowledgement
  have answered : ∀ h', Outcome sm s.delivered target g h' (s.procs target).rf rf' →
      (reply.success = true →
        args.prevLogIndex + args.entries.length ≤ h'.ack target args.term) →
      ∀ r ∈ s.rpcs.set k ⟨caller, epoch, target, .appendEntries args (some reply)⟩,
        r ∈ s.rpcs ∨ RpcInv sm h' s.delivered (s.setRaft target rf').procs r := by
    intro h' o hack r hr
    rcases List.mem_or_eq_of_mem_set hr with hr | rfl
    · exact .inl hr
    · obtain ⟨he, ld', a, b, c, d, e, f, _⟩ := hrpc.mono (acts_valid o.acts hi.valid).2
        (fun _ hm => hm) (progress_update o.others o.progress caller)
      refine .inr ⟨he, ld', a, b, c, d, e, f, ?_⟩
      intro rep hrep hs
      cases hrep
      exact hack hs
  rcases appendEntries_outcome hi.valid (hi.procs target).raft hf hlen hent hterm hlc hsealed h with
    ⟨hno, o⟩ | ⟨hyes, hct, o⟩
  · rw [if_neg (by simp [hno])]
    refine hi.set_raft o (fun _ _ _ _ hvote => .inl hvote) (answered _ o ?_)
    intro hs
    rw [hno] at hs
    cases hs
  · rw [if_pos hyes, hct]
    refine hi.set_raft o (fun _ _ _ _ hvote => .inl hvote) (answered _ o ?_)
    intro _
    rw [accept_ack_self, List.length_take, Nat.min_eq_left hlen]
    exact le_max_right _ _

theorem inv_installSnapshot (hi : Inv sm s g) {caller target : Fin n} {epoch : ℕ}
    {args : InstallSnapshotArgs n S} {reply : InstallSnapshotReply} {rf' : Raft n C S}
    (hk : s.rpcs[k]? = some ⟨caller, epoch, target, .installSnapshot args none⟩)
    (h : (s.procs target).rf.installSnapshot args = some (rf', reply)) :
    Refines sm g { s.setRaft target rf' with
        rpcs := s.rpcs.set k ⟨caller, epoch, target, .installSnapshot args (some reply)⟩ }
      (observe g s (.handle k) { s.setRaft target rf' with
        rpcs := s.rpcs.set k ⟨caller, epoch, target, .installSnapshot args (some reply)⟩ }) := by
  have hrpc := hi.rpcs _ (List.mem_of_getElem? hk)
  obtain ⟨ld, hf, hlen, hterm, hdata, hsealed, hreach, _⟩ := hrpc.2
  have hobs := observe_handle (g := g) hk (s.setRaft target rf').procs
    ⟨caller, epoch, target, .installSnapshot args (some reply)⟩
  change Refines sm g _ (observe g s (.handle k) ⟨(s.setRaft target rf').procs, _, s.delivered⟩)
  rw [hobs]
  unfold observeHandled
  dsimp only
  rw [setRaft_self, leaderLog_of_lead hf.lead]
  have answered : ∀ h', Outcome sm s.delivered target g h' (s.procs target).rf rf' →
      ∀ r ∈ s.rpcs.set k ⟨caller, epoch, target, .installSnapshot args (some reply)⟩,
        r ∈ s.rpcs ∨ RpcInv sm h' s.delivered (s.setRaft target rf').procs r := by
    intro h' o r hr
    rcases List.mem_or_eq_of_mem_set hr with hr | rfl
    · exact .inl hr
    · exact .inr (hrpc.mono (acts_valid o.acts hi.valid).2 (fun _ hm => hm)
        (progress_update o.others o.progress caller))
  rcases installSnapshot_outcome hi.valid (hi.procs target).raft hf hlen hterm hdata hsealed hreach h
    with ⟨hno, o⟩ | ⟨hyes, o⟩
  · rw [if_neg hno]
    exact hi.set_raft o (fun _ _ _ _ hvote => .inl hvote) (answered _ o)
  · rw [if_pos hyes, hyes.1]
    exact hi.set_raft o (fun _ _ _ _ hvote => .inl hvote) (answered _ o)

theorem inv_handle (hi : Inv sm s g) (h : s.handle k = some u) :
    Refines sm g u (observe g s (.handle k) u) := by
  obtain ⟨r, hk, h⟩ := Option.bind_eq_some_iff.mp h
  obtain ⟨caller, epoch, target, call⟩ := r
  cases call with
  | requestVote args reply =>
    cases reply with
    | some _ => cases h
    | none =>
      obtain ⟨x, hx, h⟩ := Option.bind_eq_some_iff.mp h
      cases h
      exact inv_requestVote hi hk hx
  | appendEntries args reply =>
    cases reply with
    | some _ => cases h
    | none =>
      obtain ⟨x, hx, h⟩ := Option.bind_eq_some_iff.mp h
      cases h
      exact inv_appendEntries hi hk hx
  | installSnapshot args reply =>
    cases reply with
    | some _ => cases h
    | none =>
      obtain ⟨x, hx, h⟩ := Option.bind_eq_some_iff.mp h
      cases h
      exact inv_installSnapshot hi hk hx

end handle

section reply
variable {k : ℕ} {p : Fin n} {x : Proc n C S} {rf' : Raft n C S}

theorem observe_reply {r : Rpc n C S} (hk : s.rpcs[k]? = some r) :
    observe g s (.reply k) u = observeReply g s u r := by
  simp [observe, hk]

theorem observeReply_quiet {r : Rpc n C S} (hu : (u.procs r.caller).rf = rf')
    (hs : rf'.state = .leader → (s.procs r.caller).rf.state = .leader) :
    observeReply g s u r = g.advance r.caller rf'.currentTerm := by
  unfold observeReply
  rw [hu]
  exact if_neg fun hc => hc.2 (hs hc.1)

theorem observeReply_elected {r : Rpc n C S} (hu : (u.procs r.caller).rf = rf')
    (hs : rf'.state = .leader) (hn : (s.procs r.caller).rf.state ≠ .leader) :
    observeReply g s u r = (g.advance r.caller rf'.currentTerm).elect r.caller rf'.currentTerm := by
  unfold observeReply
  rw [hu]
  exact if_pos ⟨hs, hn⟩

theorem finishPoll_poll {t u : ℕ} {peer v : Fin n} {votes : ℕ} :
    (x.finishPoll t peer rf' votes).poll u v =
      if u = t ∧ v = peer then .finished else x.poll u v := by
  unfold Proc.finishPoll
  by_cases hu : u = t
  · subst hu
    by_cases hv : v = peer
    · simp [hv]
    · simp [hv]
  · simp [hu]

def Counted (g : History n C) (p : Fin n) (x : Proc n C S) (t : ℕ) (peer : Fin n) (votes : ℕ)
    (rf : Raft n C S) : Prop :=
  rf.state = .candidate → ∃ A : Finset (Fin n),
    Function.update x.votes t votes rf.currentTerm ≤ A.card ∧
    ∀ v ∈ A, (v = p ∨ (rf.currentTerm = t ∧ v = peer) ∨ x.poll rf.currentTerm v = .finished) ∧
      ∃ l, g.vote v rf.currentTerm = some (p, l)

theorem ProcInv.finishPoll {d : List (Delivery n C S)} {t : ℕ} {peer : Fin n} {votes : ℕ}
    (hx : ProcInv sm g d p x) (hv : Valid LogEntry.term (Majority.quorums n) g)
    (o : Outcome sm d p g h x.rf rf') (hpeer : peer ≠ p) (hc : Counted h p x t peer votes rf') :
    ProcInv sm h d p (x.finishPoll t peer rf' votes) := by
  have hx' := hx.of_outcome hv o
  refine { hx' with pollSelf := ?_, tally := ?_ }
  · intro u
    rw [finishPoll_poll, if_neg (fun hc => hpeer hc.2.symm)]
    exact hx.pollSelf u
  · intro hs
    obtain ⟨A, hA, hall⟩ := hc hs
    refine ⟨A, hA, ?_⟩
    intro v hvA
    obtain ⟨hw, hvote⟩ := hall v hvA
    refine ⟨?_, hvote⟩
    rw [finishPoll_poll]
    change v = p ∨ (if rf'.currentTerm = t ∧ v = peer then _ else x.poll rf'.currentTerm v) = _
    split_ifs with hsame
    · exact .inr rfl
    · tauto

theorem ProcInv.counted_keep {d : List (Delivery n C S)} (hx : ProcInv sm g d p x) (t : ℕ)
    (peer : Fin n) : Counted g p x t peer (x.votes t) x.rf := by
  intro hs
  obtain ⟨A, hA, hall⟩ := hx.tally hs
  rw [Function.update_eq_self]
  exact ⟨A, hA, fun v hv => ⟨(hall v hv).1.imp_right .inr, (hall v hv).2⟩⟩

/-- A granted vote is new to the count: its goroutine was still calling. -/
theorem ProcInv.tally_grant {d : List (Delivery n C S)} {peer : Fin n}
    (hx : ProcInv sm g d p x) (hs : x.rf.state = .candidate)
    (hcall : x.poll x.rf.currentTerm peer = .calling) (hpeer : peer ≠ p)
    (hvote : ∃ l, g.vote peer x.rf.currentTerm = some (p, l)) : ∃ A : Finset (Fin n),
      x.votes x.rf.currentTerm + 1 ≤ A.card ∧
      ∀ v ∈ A, (v = p ∨ v = peer ∨ x.poll x.rf.currentTerm v = .finished) ∧
        ∃ l, g.vote v x.rf.currentTerm = some (p, l) := by
  obtain ⟨A, hA, hall⟩ := hx.tally hs
  have hnew : peer ∉ A := by
    intro hmem
    rcases (hall peer hmem).1 with hp | hp
    · exact hpeer hp
    · rw [hcall] at hp
      cases hp
  refine ⟨insert peer A, ?_, ?_⟩
  · rw [Finset.card_insert_of_notMem hnew]
    omega
  · intro v hv
    rcases Finset.mem_insert.mp hv with rfl | hv
    · exact ⟨.inr (.inl rfl), hvote⟩
    · exact ⟨(hall v hv).1.imp_right .inr, (hall v hv).2⟩

theorem voteReply_cases {rf : Raft n C S} {t votes votes' : ℕ} {reply : RequestVoteReply}
    (h : rf.voteReply t votes reply = (rf', votes')) :
    (rf.currentTerm < reply.term ∧ rf' = rf.toFollower reply.term) ∨
    (rf' = rf ∧ votes' = votes) ∨
    (rf.currentTerm = t ∧ rf.state = .candidate ∧ reply.voteGranted = true ∧ votes' = votes + 1 ∧
      (rf' = rf ∨ (n / 2 < votes + 1 ∧ rf' = rf.becomeLeader t))) := by
  unfold Raft.voteReply at h
  split_ifs at h with hterm hskip hyes hmaj
  all_goals cases h
  · exact .inl ⟨hterm, rfl⟩
  · exact .inr (.inl ⟨rfl, rfl⟩)
  · exact .inr (.inr ⟨by tauto, by tauto, hyes, rfl, .inr ⟨hmaj, rfl⟩⟩)
  · exact .inr (.inr ⟨by tauto, by tauto, hyes, rfl, .inl rfl⟩)
  · exact .inr (.inl ⟨rfl, rfl⟩)

theorem inv_finishPoll (hi : Inv sm s g) {caller target : Fin n} {t votes : ℕ}
    (o : Outcome sm s.delivered caller g h (s.procs caller).rf rf') (hne : target ≠ caller)
    (hvotes : h.vote = g.vote) (hc : Counted g caller (s.procs caller) t target votes rf') :
    Refines sm g { s.setProc caller ((s.procs caller).finishPoll t target rf' votes) with
      rpcs := s.rpcs.eraseIdx k } h := by
  refine hi.move o.acts o.others (fun _ hm => hm)
    ((hi.procs caller).finishPoll hi.valid o hne ?_)
    ⟨le_refl _, o.term, o.progress.candidate, fun _ => o.commit⟩
    (fun _ _ _ _ hv => .inl (by rwa [hvotes] at hv))
    (fun _ hr => .inl (List.mem_of_mem_eraseIdx hr)) (fun _ hz => .inl hz)
  unfold Counted
  rw [hvotes]
  exact hc

theorem inv_voteReply (hi : Inv sm s g) {caller target : Fin n} {epoch : ℕ}
    {args : RequestVoteArgs n} {reply : RequestVoteReply} {votes : ℕ}
    (hk : s.rpcs[k]? = some ⟨caller, epoch, target, .requestVote args (some reply)⟩)
    (hcall : (s.procs caller).poll args.term target = .calling)
    (h : (s.procs caller).rf.voteReply args.term ((s.procs caller).votes args.term) reply =
      (rf', votes)) :
    Refines sm g { s.setProc caller ((s.procs caller).finishPoll args.term target rf' votes) with
        rpcs := s.rpcs.eraseIdx k }
      (observe g s (.reply k)
        { s.setProc caller ((s.procs caller).finishPoll args.term target rf' votes) with
          rpcs := s.rpcs.eraseIdx k }) := by
  obtain ⟨_, _, _, _, hgrant⟩ := hi.rpcs _ (List.mem_of_getElem? hk)
  have hproc := hi.procs caller
  have hne : target ≠ caller := by
    rintro rfl
    rw [hproc.pollSelf] at hcall
    cases hcall
  have hself : (Function.update s.procs caller
      ((s.procs caller).finishPoll args.term target rf' votes) caller).rf = rf' := by
    rw [Function.update_self]
    rfl
  rw [observe_reply hk]
  rcases voteReply_cases h with ⟨hterm, rfl⟩ | ⟨rfl, rfl⟩ | ⟨hct, hs, hyes, rfl, hres⟩
  · rw [observeReply_quiet hself (fun hs => by cases hs)]
    exact inv_finishPoll hi (toFollower_outcome hi.valid hproc.raft hterm) hne rfl
      (fun hs => by cases hs)
  · rw [observeReply_quiet hself (fun hs => hs)]
    dsimp only
    rw [hproc.raft.advance_eq]
    exact inv_finishPoll hi (Outcome.refl hproc.raft) hne rfl (hproc.counted_keep _ _)
  · have hvote := hgrant reply rfl hyes
    rw [← hct] at hcall hvote
    obtain ⟨A, hA, hall⟩ := hproc.tally_grant hs hcall hne hvote
    rcases hres with rfl | ⟨hmaj, rfl⟩
    · rw [observeReply_quiet hself (fun hs => hs)]
      dsimp only
      rw [hproc.raft.advance_eq]
      refine inv_finishPoll hi (Outcome.refl hproc.raft) hne rfl ?_
      intro _
      rw [hct, Function.update_self, ← hct]
      exact ⟨A, hA, fun v hv => ⟨(hall v hv).1.imp_right (.imp_left fun hw => ⟨rfl, hw⟩), (hall v hv).2⟩⟩
    · have o := becomeLeader_outcome hi.valid hproc.raft hs A (by rw [hct] at hA; omega) (by
        intro v hv
        obtain ⟨_, l, hl⟩ := hall v hv
        exact ⟨l, hl, hi.voteUp v caller l hl hs⟩)
      have hlead : ((s.procs caller).rf.becomeLeader args.term).state = .leader := by
        simp [Raft.becomeLeader, hs, hct]
      have hterm : ((s.procs caller).rf.becomeLeader args.term).currentTerm =
          (s.procs caller).rf.currentTerm := by
        simp [Raft.becomeLeader, hs, hct]
      rw [observeReply_elected hself hlead (by dsimp only; rw [hs]; decide), hterm]
      dsimp only
      rw [hproc.raft.advance_eq]
      rw [hct] at o ⊢
      refine inv_finishPoll hi o hne rfl ?_
      intro hc
      rw [hlead] at hc
      cases hc

theorem inv_reply_raft (hi : Inv sm s g) {r : Rpc n C S} (hk : s.rpcs[k]? = some r)
    (o : Outcome sm s.delivered r.caller g (g.advance r.caller rf'.currentTerm)
      (s.procs r.caller).rf rf')
    (hs : rf'.state = .leader → (s.procs r.caller).rf.state = .leader) :
    Refines sm g { s.setRaft r.caller rf' with rpcs := s.rpcs.eraseIdx k }
      (observe g s (.reply k) { s.setRaft r.caller rf' with rpcs := s.rpcs.eraseIdx k }) := by
  have hquiet : observeReply g s { s.setRaft r.caller rf' with rpcs := s.rpcs.eraseIdx k } r =
      g.advance r.caller rf'.currentTerm := observeReply_quiet (setRaft_self s r.caller rf') hs
  rw [observe_reply hk, hquiet]
  exact hi.set_raft o (fun _ _ _ _ hv => .inl hv) (fun _ hr => .inl (List.mem_of_mem_eraseIdx hr))

theorem inv_reply (hi : Inv sm s g) (h : s.reply k = some u) :
    Refines sm g u (observe g s (.reply k) u) := by
  obtain ⟨r, hk, h⟩ := Option.bind_eq_some_iff.mp h
  dsimp only at h
  have hrpc := hi.rpcs _ (List.mem_of_getElem? hk)
  by_cases hep : r.epoch ≠ (s.procs r.caller).epoch
  · rw [if_pos hep] at h
    cases h
  rw [if_neg hep] at h
  obtain ⟨caller, epoch, target, call⟩ := r
  have hraft := (hi.procs caller).raft
  cases call with
  | requestVote args reply =>
    cases reply with
    | none => cases h
    | some reply =>
      dsimp only at h
      split_ifs at h with hcall
      cases h
      exact inv_voteReply hi hk (by simpa using hcall) rfl
  | appendEntries args reply =>
    cases reply with
    | none => cases h
    | some reply =>
      obtain ⟨rf', hrf, h⟩ := Option.bind_eq_some_iff.mp h
      cases h
      obtain ⟨_, ld, _, _, _, _, _, _, hack⟩ := hrpc
      obtain ⟨o, hs⟩ := appendReply_outcome hi.valid hraft (hack reply rfl) hrf
      exact inv_reply_raft hi hk o hs
  | installSnapshot args reply =>
    cases reply with
    | none => cases h
    | some reply =>
      cases h
      obtain ⟨_, ld, _, _, _, _, _, _, hcommit⟩ := hrpc
      obtain ⟨o, hs⟩ := snapshotReply_outcome hi.valid hraft target reply
        (hcommit (by simpa using hep))
      exact inv_reply_raft hi hk o hs

end reply

end DistributedLabs.RaftHistory
