import DistributedLabs.RsmRefinement

set_option autoImplicit false

/-!
# The log as the servers see it

The commands that have come up so far are one list, which grows by one command at a time:
nobody is handed an index before somebody was handed the one below. A `Submit` call has
landed when its `Op` stands at its index of that list; calls land in the order in which
they were made.
-/
namespace DistributedLabs.RsmCommits
open RsmModel Runs RsmStack RsmRefinement
open RaftHistory (Stream Reached MsgInv Decided)

variable {n : ℕ} {R V B St : Type} {machine : StateMachine R V B St} {maxraftstate : ℤ}

section order
variable {C S : Type} {sm : RaftCluster.StateMachine C S} {s : RaftCluster.Cluster n C S}
  {g : RaftHistory.History n C} {d : List (RaftCluster.Delivery n C S)}
  {ms ms' : List (RaftModel.ApplyMsg C S)} {i j : ℕ}

theorem stream_of_append (h : Stream i (ms ++ ms') j) : ∃ k, Stream i ms k ∧ Stream k ms' j := by
  induction ms generalizing i with
  | nil => exact ⟨i, rfl, h⟩
  | cons m ms ih =>
    cases m with
    | command c k =>
      obtain ⟨j', hj, hj'⟩ := ih h.2
      exact ⟨j', ⟨h.1, hj⟩, hj'⟩
    | snapshot data t k =>
      obtain ⟨j', hj, hj'⟩ := ih h.2
      exact ⟨j', ⟨h.1, hj⟩, hj'⟩

theorem stream_reached (h : Stream i ms j) (hr : Reached d i)
    (hm : ∀ m ∈ ms, MsgInv sm g d m ∧ ∃ y ∈ d, y.msg = m) : Reached d j := by
  induction ms generalizing i with
  | nil =>
    cases h
    exact hr
  | cons m ms ih =>
    obtain ⟨hinv, y, hy, hmsg⟩ := hm m List.mem_cons_self
    cases m with
    | command c k =>
      obtain ⟨rfl, hrest⟩ := h
      refine ih hrest ?_ fun m hmem => hm m (List.mem_cons_of_mem _ hmem)
      intro l hl hle
      rcases Nat.lt_or_ge i l with hlt | hge
      · obtain rfl : l = i + 1 := by omega
        exact ⟨y, hy, c, hmsg⟩
      · exact hr l hl hge
    | snapshot data t k =>
      exact ih h.2 hinv.2.1 fun m hmem => hm m (List.mem_cons_of_mem _ hmem)

/-- The applier sends a command only after commands for all lower indices have been sent, by
    itself or by others. -/
theorem sending_reached (hi : RaftHistory.Inv sm s g) {p : Fin n} {c : Option C} {k : ℕ}
    (h : (s.procs p).sending = some (.command c k)) : 0 < k ∧ Reached s.delivered (k - 1) := by
  have hproc := hi.procs p
  obtain ⟨i, st, rest, hstates, hstream⟩ := hproc.stream
  rw [h] at hstream
  obtain ⟨j, hj, hlast⟩ := stream_of_append hstream
  obtain ⟨rfl, _⟩ := hlast
  refine ⟨Nat.succ_pos j, ?_⟩
  rw [Nat.add_sub_cancel]
  have hsent : ∀ m ∈ (s.procs p).applyCh, MsgInv sm g s.delivered m ∧
      ∃ y ∈ s.delivered, y.msg = m :=
    fun m hm => ⟨hproc.msgs m (List.mem_append_left _ hm), hproc.sent m hm⟩
  exact stream_reached hj (hproc.states (i, st) (by simp [hstates])).1 hsent

end order

theorem getElem?_snoc {α : Type} {l : List α} {a b : α} {k : ℕ} (h : (l ++ [a])[k]? = some b) :
    l[k]? = some b ∨ k = l.length ∧ b = a := by
  have hlt := (List.getElem?_eq_some_iff.mp h).choose
  rw [List.length_append, List.length_singleton] at hlt
  rcases Nat.lt_or_ge k l.length with hk | hk
  · rw [List.getElem?_append_left hk] at h
    exact .inl h
  · obtain rfl : k = l.length := by omega
    rw [List.getElem?_concat_length] at h
    exact .inr ⟨rfl, (Option.some.inj h).symm⟩

section log
variable {cs : List (Command n R)}
  {d d' : List (RaftCluster.Delivery n (Command n R) (SnapshotData B))} {t : Ticket n R}

def Landed (cs : List (Command n R)) (t : Ticket n R) : Prop :=
  0 < t.index ∧ cs[t.index - 1]? = some (.op t.op)

theorem Landed.le (h : Landed cs t) : t.index ≤ cs.length := by
  have := (List.getElem?_eq_some_iff.mp h.2).choose
  omega

theorem Landed.append (h : Landed cs t) (c : Command n R) : Landed (cs ++ [c]) t := by
  refine ⟨h.1, ?_⟩
  rw [List.getElem?_append_left (List.getElem?_eq_some_iff.mp h.2).choose]
  exact h.2

theorem Landed.of_append {c : Command n R} (h : Landed (cs ++ [c]) t) :
    Landed cs t ∨ t.index = cs.length + 1 ∧ c = .op t.op := by
  rcases getElem?_snoc h.2 with hget | ⟨hindex, hc⟩
  · exact .inl ⟨h.1, hget⟩
  · have hpos := h.1
    exact .inr ⟨by omega, hc.symm⟩

structure Surfaced (d : List (RaftCluster.Delivery n (Command n R) (SnapshotData B)))
    (cs : List (Command n R)) : Prop where
  logged : Logged d cs
  covers : ∀ y ∈ d, ∀ i c, commandAt i y = some c → i ≤ cs.length

theorem surfaced_nil :
    Surfaced ([] : List (RaftCluster.Delivery n (Command n R) (SnapshotData B))) [] :=
  ⟨fun i c hi => (by simp at hi), fun y hy => (by cases hy)⟩

variable {y : RaftCluster.Delivery n (Command n R) (SnapshotData B)}

theorem Surfaced.repeat (h : Surfaced d cs) (hy : ∀ i c, commandAt i y = some c → i ≤ cs.length) :
    Surfaced (y :: d) cs where
  logged := h.logged.mono (List.subset_cons_self _ _)
  covers z hz := by
    rcases List.mem_cons.mp hz with rfl | hz
    · exact hy
    · exact h.covers z hz

theorem Surfaced.next (h : Surfaced d cs) {c : Command n R}
    (hy : commandAt (cs.length + 1) y = some c) : Surfaced (y :: d) (cs ++ [c]) where
  logged i c' hi := by
    rcases getElem?_snoc hi with hi | ⟨rfl, rfl⟩
    · obtain ⟨z, hz, hc⟩ := h.logged i c' hi
      exact ⟨z, List.mem_cons_of_mem _ hz, hc⟩
    · exact ⟨y, List.mem_cons_self, hy⟩
  covers z hz i c' hc' := by
    rw [List.length_append, List.length_singleton]
    rcases List.mem_cons.mp hz with rfl | hz
    · obtain ⟨o, ho, _⟩ := commandAt_eq_some.mp hy
      obtain ⟨o', ho', _⟩ := commandAt_eq_some.mp hc'
      rw [ho] at ho'
      cases ho'
      exact Nat.le_refl _
    · exact Nat.le_succ_of_le (h.covers z hz i c' hc')

end log

section steps
variable {w u : Stack n R V B St} {p : Fin n}
  {past : List (Transition (RaftCluster.Cluster n (Command n R) (SnapshotData B))
    (RaftCluster.Label n (Command n R)))} {cs : List (Command n R)}

theorem surfaced_send (hg : Grounded machine past w) (hs : Surfaced w.raft.delivered cs)
    {msg : RaftModel.ApplyMsg (Command n R) (SnapshotData B)}
    (hmsg : (w.raft.procs p).sending = some msg)
    {y : RaftCluster.Delivery n (Command n R) (SnapshotData B)} (hy : y.msg = msg) :
    Surfaced (y :: w.raft.delivered) cs ∨ ∃ c, Surfaced (y :: w.raft.delivered) (cs ++ [c]) := by
  cases msg with
  | snapshot data t k => exact .inl (hs.repeat (by simp [commandAt, hy]))
  | command c k =>
    obtain ⟨g, hinv, _⟩ := RaftSafety.visits_inv hg.run
    obtain ⟨hpos, hreach⟩ := sending_reached hinv hmsg
    -- the commands below have come up before
    have hle : k ≤ cs.length + 1 := by
      rcases Nat.eq_zero_or_pos (k - 1) with hz | hz
      · omega
      · obtain ⟨x, hx, o, ho⟩ := hreach (k - 1) hz (Nat.le_refl _)
        have := hs.covers x hx _ _ (commandAt_eq_some.mpr ⟨o, ho, rfl⟩)
        omega
    rcases Nat.lt_or_ge cs.length k with hnew | hold
    · obtain rfl : k = cs.length + 1 := by omega
      exact .inr ⟨_, hs.next (commandAt_eq_some.mpr ⟨c, hy, rfl⟩)⟩
    · refine .inl (hs.repeat ?_)
      intro i c' hc'
      obtain ⟨o, ho, _⟩ := commandAt_eq_some.mp hc'
      rw [hy] at ho
      cases ho
      exact hold

/-- Only the applier brings a command up, one at a time, and then no call is made. -/
theorem Surfaced.step (hg : Grounded machine past w) (hs : Surfaced w.raft.delivered cs)
    {l : Label n R} (h : Stepped machine w l u) :
    Surfaced u.raft.delivered cs ∨
      ∃ p c, l = .send p ∧ u.calls = w.calls ∧ Surfaced u.raft.delivered (cs ++ [c]) := by
  have quiet : u.raft.delivered = w.raft.delivered → Surfaced u.raft.delivered cs := by
    intro hd
    rw [hd]
    exact hs
  cases h with
  | raft l raft hl h => exact .inl (quiet (internal_frame hl h).delivered)
  | send p msg raft hmsg h =>
    obtain ⟨m, hm, h⟩ := Option.bind_eq_some_iff.mp h
    rw [hmsg] at hm
    cases hm
    cases h
    rcases surfaced_send hg hs hmsg (y := ⟨p, (w.raft.procs p).epoch, msg⟩) rfl with hs' | ⟨c, hs'⟩
    · exact .inl hs'
    · exact .inr ⟨p, c, rfl, rfl, hs'⟩
  | read p raft rsm calls hraft h => exact .inl (quiet (receive_keeps hraft).2.2)
  | restart p raft h =>
    cases h
    exact .inl hs
  | submitDead | refused | submitted | startForeign | receive | timeout | finish | skipSnapshot
  | snapshot | stop => exact .inl hs

theorem index_pos (hg : Grounded machine past w)
    {x : RaftCluster.Delivery n (Command n R) (SnapshotData B)} (hx : x ∈ w.raft.delivered) {i : ℕ}
    {c : Command n R} (hc : commandAt i x = some c) : 0 < i := by
  obtain ⟨g, hi, _⟩ := RaftSafety.visits_inv hg.run
  obtain ⟨o, ho, _⟩ := commandAt_eq_some.mp hc
  have hm := hi.delivered x hx
  rw [ho] at hm
  exact hm.1

end steps

section standing
variable [DecidableEq R] {w u : Stack n R V B St} {cs : List (Command n R)} {k k' i : ℕ}
  {c c' : Submission n R V}

/-- The servers have run to `w` and reused no id for an index, and `cs` is what has come up. -/
structure Standing (machine : StateMachine R V B St) (maxraftstate : ℤ) (w : Stack n R V B St)
    (cs : List (Command n R)) : Prop where
  grounded : ∃ past, Grounded machine past w
  agreed : ∃ past W, Run (agreedLog n machine maxraftstate) past W ∧ Rel machine w W
  surfaced : Surfaced w.raft.delivered cs

theorem standing_initial (round : Restores machine) :
    Standing machine maxraftstate (initial machine : Stack n R V B St) [] where
  grounded := grounded_run round (Run.start (M := stack n machine maxraftstate) rfl)
  agreed := ⟨[], _, .start rfl, rel_initial machine⟩
  surfaced := surfaced_nil

theorem Standing.step (round : Restores machine)
    (h : Standing machine maxraftstate w cs) {l : Label n R} (hfresh : Fresh w l)
    (hstep : Stepped machine w l u) : Standing machine maxraftstate u cs ∨
      ∃ p c, l = .send p ∧ u.calls = w.calls ∧ Standing machine maxraftstate u (cs ++ [c]) := by
  obtain ⟨past, hg⟩ := h.grounded
  obtain ⟨past', W, hW, hrel⟩ := h.agreed
  obtain ⟨next, hg', _⟩ := hg.step round hstep
  obtain ⟨W', hreach, hrel'⟩ := simulate_step round hg hg' hrel hfresh hstep
  obtain ⟨next', hW'⟩ := hW.extend hreach
  rcases h.surfaced.step hg hstep with hs | ⟨p, c, hl, hcalls, hs⟩
  · exact .inl ⟨⟨next, hg'⟩, ⟨next', W', hW', hrel'⟩, hs⟩
  · exact .inr ⟨p, c, hl, hcalls, ⟨next, hg'⟩, ⟨next', W', hW', hrel'⟩, hs⟩

/-- What a reply rests on: the `Op` has come up, and the value is that of the log below. -/
theorem answer_landed {W : RsmCluster.World n R V B St} (h : Standing machine maxraftstate w cs)
    (hrel : Rel machine w W) {v : V} (hans : RsmReplies.Answers W c (some v)) :
    Landed cs (ticket c) ∧
      v = (machine.doOp (fold machine (cs.take (c.index - 1))) c.op.req).1 := by
  obtain ⟨past, hg⟩ := h.grounded
  obtain ⟨hdec, _, hv, happ⟩ := hans
  cases hv
  rw [hrel.decided] at hdec
  obtain ⟨y, hy, hc⟩ := hg.agree.agreed.mp hdec
  have hpos := index_pos hg hy hc
  have hle := h.surfaced.covers y hy _ _ hc
  refine ⟨⟨hpos, ?_⟩, ?_⟩
  · change cs[c.index - 1]? = some (.op c.op)
    rw [← h.surfaced.logged.agreed hg.agree (c.index - 1) (by omega), Nat.sub_add_cancel hpos]
    exact hdec
  · obtain ⟨cs', hlog, hindex, hres⟩ := hrel.applied _ happ
    dsimp only at hindex hres
    rw [hres, hlog.comparable hg.agree h.surfaced.logged (by omega), hindex, Nat.add_sub_cancel]

theorem Standing.returned (h : Standing machine maxraftstate w cs) (hk : w.calls[k]? = some c)
    {v : V} (hret : c.returned = some ⟨some v, .ok⟩) : Landed cs (ticket c) ∧
      v = (machine.doOp (fold machine (cs.take (c.index - 1))) c.op.req).1 := by
  obtain ⟨past, W, hW, hrel⟩ := h.agreed
  exact answer_landed h hrel (((agreedLog_inv hW).calls k c (by rw [hrel.calls]; exact hk)).returned
    _ hret)

theorem Standing.waiting (h : Standing machine maxraftstate w cs) (hk : w.calls[k]? = some c)
    {v : V} (hch : c.ch = some ⟨some v, .ok⟩) : Landed cs (ticket c) ∧
      v = (machine.doOp (fold machine (cs.take (c.index - 1))) c.op.req).1 := by
  obtain ⟨past, W, hW, hrel⟩ := h.agreed
  exact answer_landed h hrel (((agreedLog_inv hW).calls k c (by rw [hrel.calls]; exact hk)).waiting
    _ hch)

theorem Standing.unique (h : Standing machine maxraftstate w cs) (hk : w.calls[k]? = some c)
    (hk' : w.calls[k']? = some c') (hindex : c.index = c'.index) (hop : c.op = c'.op) : k = k' := by
  obtain ⟨past, W, hW, hrel⟩ := h.agreed
  have hi := agreedLog_inv hW
  rw [← hrel.calls] at hk hk'
  refine hi.distinct k k' c c' hk hk' ?_ hindex (by rw [hop])
  rw [← (hi.calls k c hk).me, ← (hi.calls k' c' hk').me, hop]

theorem Standing.owner (h : Standing machine maxraftstate w cs) {o : Op n R}
    (hget : cs[i]? = some (.op o)) :
    ∃ (k : ℕ) (c : Submission n R V), w.calls[k]? = some c ∧ c.index = i + 1 ∧ c.op = o := by
  obtain ⟨past, hg⟩ := h.grounded
  obtain ⟨x, hx, hc⟩ := h.surfaced.logged i _ hget
  obtain ⟨call, hcall, hindex, hop⟩ := hg.submitted hx hc
  obtain ⟨k, hk⟩ := List.mem_iff_getElem?.mp hcall
  exact ⟨k, call, hk, hindex, hop⟩

/-- The entry of a call that has landed is the one that its own `Start` made. -/
theorem Standing.entry (h : Standing machine maxraftstate w cs)
    {past : List (Transition (RaftCluster.Cluster n (Command n R) (SnapshotData B))
      (RaftCluster.Label n (Command n R)))} (hg : Grounded machine past w)
    {g : RaftHistory.History n (Command n R)} (hinv : RaftHistory.Inv (service machine) w.raft g)
    (ha : RaftProvenance.Accounts past g) (hk : w.calls[k]? = some c)
    (hl : Landed cs (ticket c)) :
    ∃ l e, Decided g l ∧ l[c.index - 1]? = some e ∧ e.term = c.term := by
  have hpos : c.index - 1 + 1 = c.index := Nat.sub_add_cancel hl.1
  obtain ⟨x, hx, hc⟩ := h.surfaced.logged _ _ hl.2
  obtain ⟨o, hmsg, ho⟩ := commandAt_eq_some.mp hc
  have hm := hinv.delivered x hx
  rw [hmsg] at hm
  obtain ⟨_, l, e, hdec, he, rfl⟩ := hm
  refine ⟨l, e, hdec, he, ?_⟩
  obtain ⟨z, hz, p, hstart⟩ := ha.backed hinv.valid (RaftProvenance.Decided.backed hinv.valid hdec) he
  have hcommand : e.command = some (.op c.op) := by
    cases hcommand : e.command with
    | none =>
      rw [hcommand] at ho
      cases ho
    | some c' =>
      rw [hcommand] at ho
      exact congrArg some ho
  rw [hcommand] at hstart
  obtain ⟨_, ht, _, hop, hindex, hterm⟩ := hg.booked.all z hz p _ _ _ hstart
  obtain ⟨call, hcall, rfl⟩ := List.mem_map.mp ht
  obtain ⟨k', hk'⟩ := List.mem_iff_getElem?.mp hcall
  obtain rfl : k' = k := h.unique hk' hk (hindex.trans hpos) hop
  rw [hk] at hk'
  cases hk'
  exact hterm.symm

/-- Calls land in the order in which they were made. -/
theorem Standing.in_order (h : Standing machine maxraftstate w cs) (hk : w.calls[k]? = some c)
    (hk' : w.calls[k']? = some c') (hl : Landed cs (ticket c)) (hl' : Landed cs (ticket c'))
    (hlt : k < k') : c.index < c'.index := by
  obtain ⟨past, hg⟩ := h.grounded
  obtain ⟨g, hinv, ha⟩ := RaftProvenance.accounts_run hg.run
  obtain ⟨l, e, hdec, he, hterm⟩ := h.entry hg hinv ha hk hl
  obtain ⟨l', e', hdec', he', hterm'⟩ := h.entry hg hinv ha hk' hl'
  obtain ⟨x, y, hxy, hx, hy⟩ : ∃ x y, [y, x].Sublist past ∧ Books x (ticket c) ∧
      Books y (ticket c') := by
    obtain ⟨hb, rfl⟩ := List.getElem?_eq_some_iff.mp hk
    obtain ⟨hb', rfl⟩ := List.getElem?_eq_some_iff.mp hk'
    have horder := List.pairwise_iff_getElem.mp hg.booked.order k k' (by simpa using hb)
      (by simpa using hb') hlt
    simpa using horder
  by_contra hge
  -- the longer of the two decided logs holds both entries
  have hlen := (List.getElem?_eq_some_iff.mp he).choose
  have hpos : 0 < c'.index := hl'.1
  have hin : l[c'.index - 1]? = some l[c'.index - 1] := List.getElem?_eq_getElem (by omega)
  rw [RaftSafety.decided_agree hinv.valid hdec hdec' hin he'] at hin
  exact hge (ha.in_order (RaftProvenance.Decided.backed hinv.valid hdec) hxy hx hy he hterm hin
    hterm')

theorem Standing.not_landed (h : Standing machine maxraftstate w cs)
    (h' : Standing machine maxraftstate u cs) (hu : u.calls = w.calls ++ [c]) :
    ¬ Landed cs (ticket c) := by
  rintro ⟨hpos, hget⟩
  obtain ⟨k, call, hk, hindex, hop⟩ := h.owner hget
  have hlt := (List.getElem?_eq_some_iff.mp hk).choose
  have hold : u.calls[k]? = some call := by
    rw [hu, List.getElem?_append_left hlt]
    exact hk
  have hnew : u.calls[w.calls.length]? = some c := by
    rw [hu, List.getElem?_concat_length]
  have := h'.unique hold hnew (hindex.trans (Nat.sub_add_cancel hpos)) hop
  omega

end standing
end DistributedLabs.RsmCommits
