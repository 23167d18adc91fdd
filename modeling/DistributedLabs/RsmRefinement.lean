import DistributedLabs.RsmReplies
import DistributedLabs.RsmStack

set_option autoImplicit false

/-!
# The servers on Raft are servers on an agreed log

What `RsmCluster` assumes of Raft holds of the Raft that is really below: the
commands that come up were passed to `Start` before, and whoever gets a command for
an index gets the same one. So each run of the stack is a run of that simpler system.
-/
namespace DistributedLabs.RsmRefinement
open RsmModel Runs RsmStack
open RaftCluster (Cluster)
open RsmCluster (World Applied)

variable {n : ℕ} {R V B St : Type} {machine : StateMachine R V B St} {maxraftstate : ℤ}
  {w u : Stack n R V B St} {W : World n R V B St} {p : Fin n}
  {past past' : List (Transition (Cluster n (Command n R) (SnapshotData B))
    (RaftCluster.Label n (Command n R)))}

/-- No earlier incarnation of the server got this index for an operation with the next id. -/
def Fresh (w : Stack n R V B St) : Label n R → Prop
  | .submit p _ => (w.raft.procs p).rf.state = .leader → ∀ c ∈ w.calls, c.server = p →
      c.epoch < (w.raft.procs p).epoch → c.index = (w.raft.procs p).rf.lastLogIndex + 1 →
      c.op.id ≠ (w.rsms p).nextId + 1
  | _ => True

instance (w : Stack n R V B St) (l : Label n R) : Decidable (Fresh w l) :=
  match l with
  | .submit p _ => inferInstanceAs (Decidable ((w.raft.procs p).rf.state = .leader →
      ∀ c ∈ w.calls, c.server = p → c.epoch < (w.raft.procs p).epoch →
      c.index = (w.raft.procs p).rf.lastLogIndex + 1 → c.op.id ≠ (w.rsms p).nextId + 1))
  | .raft _ | .startForeign _ | .receive _ | .timeout _ | .send _ | .read _ | .finish _
  | .maybeSnapshot _ _ | .stop _ | .restart _ => isTrue trivial

def Sequential (machine : StateMachine R V B St)
    (d : List (RaftCluster.Delivery n (Command n R) (SnapshotData B))) (a : Applied n R V) : Prop :=
  ∃ cs, Logged d cs ∧ a.index = cs.length + 1 ∧ a.result = (machine.doOp (fold machine cs) a.req).1

theorem Sequential.mono {d d' : List (RaftCluster.Delivery n (Command n R) (SnapshotData B))}
    (hd : d ⊆ d') {a : Applied n R V} (h : Sequential machine d a) : Sequential machine d' a := by
  obtain ⟨cs, hcs, rest⟩ := h
  exact ⟨cs, hcs.mono hd, rest⟩

structure Rel (machine : StateMachine R V B St) (w : Stack n R V B St) (W : World n R V B St) :
    Prop where
  rsm : ∀ p, (W.servers p).rsm = w.rsms p
  epoch : ∀ p, (W.servers p).epoch = (w.raft.procs p).epoch
  calls : W.calls = w.calls
  decided : ∀ i, W.decided i = agreed w.raft.delivered i
  applied : ∀ a ∈ W.applied, Sequential machine w.raft.delivered a

theorem Rel.move (h : Rel machine w W) {W' : World n R V B St} {x : RsmCluster.Server n R V B St}
    (hW : W'.servers = Function.update W.servers p x)
    (hu : u.rsms = Function.update w.rsms p x.rsm) (he : x.epoch = (u.raft.procs p).epoch)
    (hothers : ∀ q, q ≠ p → (u.raft.procs q).epoch = (w.raft.procs q).epoch)
    (hcalls : W'.calls = u.calls) (hdec : ∀ i, W'.decided i = agreed u.raft.delivered i)
    (happ : ∀ a ∈ W'.applied, Sequential machine u.raft.delivered a) : Rel machine u W' where
  rsm q := by
    rw [hW, hu]
    by_cases hq : q = p
    · subst hq
      simp
    · simp [hq, h.rsm]
  epoch q := by
    rw [hW]
    by_cases hq : q = p
    · subst hq
      simp [he]
    · simp [hq, h.epoch, hothers q hq]
  calls := hcalls
  decided := hdec
  applied := happ

theorem Rel.quiet (h : Rel machine w W) {W' : World n R V B St} {x : RsmCluster.Server n R V B St}
    (hW : W'.servers = Function.update W.servers p x)
    (hu : u.rsms = Function.update w.rsms p x.rsm) (he : x.epoch = (W.servers p).epoch)
    (hf : Frame w.raft u.raft) (hcalls : W'.calls = u.calls) (hdec : W'.decided = W.decided)
    (happ : ∀ a ∈ W'.applied, Sequential machine w.raft.delivered a) : Rel machine u W' := by
  refine h.move hW hu ?_ (fun q _ => hf.epoch q) hcalls ?_ ?_
  · rw [he, h.epoch, hf.epoch]
  · intro i
    rw [hdec, h.decided, hf.delivered]
  · rw [hf.delivered]
    exact happ

section deliveries
variable {x : RaftCluster.Delivery n (Command n R) (SnapshotData B)}
  {d : List (RaftCluster.Delivery n (Command n R) (SnapshotData B))} {i : ℕ} {c : Command n R}

theorem agreed_cons_self (h : commandAt i x = some c) : agreed (x :: d) i = some c := by
  simp [agreed, h]

theorem agreed_cons_none (h : commandAt i x = none) : agreed (x :: d) i = agreed d i := by
  simp [agreed, h]

end deliveries

section steps
variable [DecidableEq R]

/-- The simpler system, as far as its replies are sound. -/
def agreedLog (n : ℕ) (machine : StateMachine R V B St) (maxraftstate : ℤ) :
    Machine (World n R V B St) (RsmCluster.Label n R B) :=
  (RsmCluster.cluster n machine maxraftstate).guarded RsmReplies.Fresh

theorem one_step {W' : World n R V B St} {l : RsmCluster.Label n R B}
    (h : W.exec machine maxraftstate l = some W') (hf : RsmReplies.Fresh W l) :
    Reaches (agreedLog n machine maxraftstate) W W' :=
  .next (.refl W) ⟨h, hf⟩

theorem simulate_send (hrel : Rel machine w W)
    {msg : RaftModel.ApplyMsg (Command n R) (SnapshotData B)}
    {raft : Cluster n (Command n R) (SnapshotData B)}
    (hmsg : (w.raft.procs p).sending = some msg)
    (h : w.raft.exec (service machine) (.send p) = some raft)
    (hg' : Grounded machine past' { w.setRSM p { w.rsms p with
      applyCh := (w.rsms p).applyCh ++ [fromRaft msg] } with raft := raft }) :
    ∃ W', Reaches (agreedLog n machine maxraftstate) W W' ∧ Rel machine { w.setRSM p { w.rsms p with
      applyCh := (w.rsms p).applyCh ++ [fromRaft msg] } with raft := raft } W' := by
  obtain ⟨m, hm, h⟩ := Option.bind_eq_some_iff.mp h
  rw [hmsg] at hm
  cases hm
  cases h
  obtain ⟨x, hx⟩ : ∃ x : RaftCluster.Delivery n (Command n R) (SnapshotData B),
    x = ⟨p, (w.raft.procs p).epoch, msg⟩ := ⟨_, rfl⟩
  have hagree : Agree (x :: w.raft.delivered) := by rw [hx]; exact hg'.agree
  have happ : ∀ a ∈ W.applied, Sequential machine (x :: w.raft.delivered) a :=
    fun a ha => (hrel.applied a ha).mono (List.subset_cons_self _ _)
  rw [← hx]
  cases msg with
  | snapshot data t k =>
    have hnone : ∀ i, commandAt i x = none := by simp [hx, commandAt]
    refine ⟨_, one_step (l := .deliverSnapshot p data k) rfl trivial,
      hrel.move (p := p) rfl (by rw [hrel.rsm]; rfl) ?_ ?_ hrel.calls ?_ happ⟩
    · simp [Cluster.setProc, hrel.epoch]
    · intro q hq
      simp [Cluster.setProc, hq]
    · intro i
      exact (hrel.decided i).trans (agreed_cons_none (hnone i)).symm
  | command c k =>
    have hself : commandAt k x = some (commandToOp c) := by simp [hx, commandAt]
    have hnone : ∀ i, i ≠ k → commandAt i x = none := by
      intro i hi
      simp [hx, commandAt, hi.symm]
    -- a command that is no `Op` counts as started when it comes up
    obtain ⟨W₁, hW₁, hrel₁, hstarted⟩ : ∃ W₁, Reaches (agreedLog n machine maxraftstate) W W₁ ∧
        Rel machine w W₁ ∧ W₁.Started (commandToOp c) k := by
      cases hc : commandToOp c with
      | foreign =>
        refine ⟨_, one_step (l := .startForeign k) rfl trivial, ⟨hrel.rsm, hrel.epoch, hrel.calls,
          hrel.decided, hrel.applied⟩, ?_⟩
        exact List.mem_cons_self
      | op o =>
        refine ⟨W, .refl W, hrel, ?_⟩
        obtain ⟨call, hcall, rest⟩ := hg'.submitted (x := x) (i := k) (o := o) (by simp [hx])
          (by rw [hself, hc])
        refine ⟨call, ?_, rest⟩
        rw [hrel.calls]
        exact hcall
    have happ₁ : ∀ a ∈ W₁.applied, Sequential machine (x :: w.raft.delivered) a :=
      fun a ha => (hrel₁.applied a ha).mono (List.subset_cons_self _ _)
    have hok : W₁.decided k = none ∨ W₁.decided k = some (commandToOp c) := by
      rw [hrel₁.decided]
      cases hdec : agreed w.raft.delivered k with
      | none => exact .inl rfl
      | some c' =>
        obtain ⟨y, hy, hc'⟩ := List.exists_of_findSome?_eq_some hdec
        rw [hagree y (List.mem_cons_of_mem _ hy) x List.mem_cons_self k c' _ hc' hself]
        exact .inr rfl
    have hstep : W₁.exec machine maxraftstate (.deliver p (commandToOp c) k) = some _ :=
      if_pos ⟨hstarted, hok⟩
    refine ⟨_, hW₁.trans (one_step hstep trivial),
      hrel₁.move (p := p) rfl (by rw [hrel₁.rsm]; rfl) ?_ ?_ hrel₁.calls ?_ happ₁⟩
    · simp [Cluster.setProc, hrel₁.epoch]
    · intro q hq
      simp [Cluster.setProc, hq]
    · intro i
      by_cases hi : i = k
      · subst hi
        exact (Function.update_self _ _ _).trans (agreed_cons_self hself).symm
      · exact (Function.update_of_ne hi _ _).trans
          ((hrel₁.decided i).trans (agreed_cons_none (hnone i hi)).symm)

/-- `reader` takes a message: if it calls `DoOp`, then on the newest state. -/
theorem simulate_read (round : Restores machine)
    (hg : Grounded machine past w) (hrel : Rel machine w W)
    {raft : Cluster n (Command n R) (SnapshotData B)} {rsm : RSM n R V B St}
    {calls : List (Submission n R V)}
    (hraft : w.raft.exec (service machine) (.receive p) = some raft)
    (h : (w.rsms p).read machine w.calls = some (rsm, calls)) :
    ∃ W', Reaches (agreedLog n machine maxraftstate) W W' ∧
      Rel machine { w.setRSM p rsm with raft := raft, calls := calls } W' := by
  have hstep : W.exec machine maxraftstate (.read p) = some { W.setRSM p rsm with
      calls := calls
      applied := W.record p rsm.reader } := by
    simp only [World.exec, hrel.rsm, hrel.calls, h, Option.bind_eq_bind, Option.bind_some]
  obtain ⟨g, hi, _⟩ := RaftSafety.visits_inv hg.run
  obtain ⟨hep, _, hd⟩ := receive_keeps hraft
  refine ⟨_, one_step hstep trivial, hrel.move (p := p) rfl rfl ?_ (fun q _ => hep q) rfl ?_ ?_⟩
  · exact (hrel.epoch p).trans (hep p).symm
  · intro i
    exact (hrel.decided i).trans (by rw [hd])
  · rw [hd]
    intro a ha
    cases hr : rsm.reader with
    | applied index o v =>
      simp only [World.record, hr] at ha
      rcases List.mem_cons.mp ha with rfl | ha
      · obtain ⟨hrec, i, rest, hstates, _, hread⟩ :=
          (hg.sync p).reads round (hi.procs p) hraft h
        obtain ⟨cs, hlog, hlen, hstate⟩ := hg.state round
          (show (i, (w.rsms p).encodeSnapshot machine i) ∈ _ by rw [hstates]; exact List.mem_cons_self)
        generalize raft.procs p = y at hread
        cases hread with
        | op c ms o hch hc =>
          cases hr
          exact ⟨cs, hlog, by rw [hlen], by rw [hstate]⟩
        | foreign | snapshot =>
          change (w.rsms p).reader = _ at hr
          rw [hrec] at hr
          cases hr
      · exact hrel.applied a ha
    | receiving | checking | stopped =>
      simp only [World.record, hr] at ha
      exact hrel.applied a ha

theorem simulate_step (round : Restores machine)
    (hg : Grounded machine past w) (hg' : Grounded machine past' u) (hrel : Rel machine w W)
    {l : Label n R} (hfresh : Fresh w l) (h : Stepped machine w l u) :
    ∃ W', Reaches (agreedLog n machine maxraftstate) W W' ∧ Rel machine u W' := by
  have same : Frame w.raft w.raft := ⟨fun _ => rfl, fun _ => rfl, fun _ => rfl, rfl⟩
  cases h with
  | raft l raft hl h =>
    have hf := internal_frame hl h
    refine ⟨W, .refl W, hrel.rsm, ?_, hrel.calls, ?_, ?_⟩
    · intro q
      rw [hrel.epoch, ← hf.epoch]
    · intro i
      rw [hrel.decided, ← hf.delivered]
    · simpa only [hf.delivered] using hrel.applied
  | submitDead p req dead => exact ⟨W, .refl W, hrel⟩
  | refused p req alive follows =>
    have hstep : W.exec machine maxraftstate (.submit p req 0 0 false) = some { W.setRSM p
        { w.rsms p with nextId := (w.rsms p).nextId + 1 } with calls := w.calls } := by
      simp [World.exec, hrel.rsm, hrel.calls, RSM.submit, alive]
    exact ⟨_, one_step hstep trivial,
      hrel.quiet (p := p) rfl rfl rfl same rfl rfl hrel.applied⟩
  | submitted p req alive lead =>
    have hstep : W.exec machine maxraftstate (.submit p req
        ((w.raft.procs p).rf.lastLogIndex + 1) (w.raft.procs p).rf.currentTerm true) =
        some { W.setRSM p { w.rsms p with
          nextId := (w.rsms p).nextId + 1
          pending := ((w.raft.procs p).rf.lastLogIndex + 1, w.calls.length) ::
            (w.rsms p).pending.filter
              (fun x => decide (x.1 ≠ (w.raft.procs p).rf.lastLogIndex + 1)) } with
          calls := w.calls ++ [⟨(w.rsms p).me, (w.raft.procs p).epoch,
            ⟨(w.rsms p).me, (w.rsms p).nextId + 1, req⟩, (w.raft.procs p).rf.lastLogIndex + 1,
            (w.raft.procs p).rf.currentTerm, none, none⟩] } := by
      simp [World.exec, hrel.rsm, hrel.calls, hrel.epoch, RSM.submit, alive]
    refine ⟨_, one_step hstep ?_, hrel.quiet (p := p) rfl rfl rfl (Frame.setRaft _ _ _) rfl rfl
      hrel.applied⟩
    intro c hc hserver hlt hindex
    rw [hrel.calls] at hc
    rw [hrel.epoch] at hlt
    rw [hrel.rsm]
    exact hfresh lead c hc hserver hlt hindex
  | startForeign p =>
    have hf := Frame.setRaft w.raft p ((w.raft.procs p).rf.start (some .foreign)).1
    refine ⟨W, .refl W, hrel.rsm, ?_, hrel.calls, hrel.decided, hrel.applied⟩
    intro q
    rw [hrel.epoch, ← hf.epoch]
  | receive k c res hk hch hepoch hret =>
    have hstep : W.exec machine maxraftstate (.receive k) = some { W with
        calls := w.calls.set k { c with ch := none, returned := some res } } := by
      simp [World.exec, hrel.calls, hrel.epoch, hk, hch, hepoch, hret]
    exact ⟨_, one_step hstep trivial, hrel.rsm, hrel.epoch, rfl, hrel.decided, hrel.applied⟩
  | timeout k c hk hepoch hret rsm c' h =>
    have hstep : W.exec machine maxraftstate (.timeout k (getState (w.raft.procs c.server).rf).1
        (getState (w.raft.procs c.server).rf).2) =
        some { W.setRSM c.server rsm with calls := w.calls.set k c' } := by
      simp [World.exec, hrel.calls, hrel.epoch, hrel.rsm, hk, hepoch, hret, h]
    exact ⟨_, one_step hstep trivial,
      hrel.quiet (p := c.server) rfl rfl rfl same rfl rfl hrel.applied⟩
  | send p msg raft hmsg h => exact simulate_send hrel hmsg h hg'
  | read p raft rsm calls hraft h => exact simulate_read round hg hrel hraft h
  | finish p rsm calls h =>
    have hstep : W.exec machine maxraftstate (.finish p) =
        some { W.setRSM p rsm with calls := calls } := by
      simp [World.exec, hrel.calls, hrel.rsm, h]
    exact ⟨_, one_step hstep trivial,
      hrel.quiet (p := p) rfl rfl rfl same rfl rfl hrel.applied⟩
  | skipSnapshot p persistBytes hr =>
    have hstep : W.exec machine maxraftstate (.maybeSnapshot p persistBytes) = some (W.setServer p
        ⟨{ w.rsms p with reader := .receiving }, (W.servers p).epoch,
          ((w.rsms p).maybeSnapshot machine maxraftstate persistBytes).or
            (W.servers p).persisted⟩) := by
      simp [World.exec, hrel.rsm, hr]
    exact ⟨_, one_step hstep trivial,
      hrel.quiet (p := p) rfl rfl rfl same hrel.calls rfl hrel.applied⟩
  | snapshot p persistBytes rf hr h =>
    have hstep : W.exec machine maxraftstate (.maybeSnapshot p persistBytes) = some (W.setServer p
        ⟨{ w.rsms p with reader := .receiving }, (W.servers p).epoch,
          ((w.rsms p).maybeSnapshot machine maxraftstate persistBytes).or
            (W.servers p).persisted⟩) := by
      simp [World.exec, hrel.rsm, hr]
    exact ⟨_, one_step hstep trivial,
      hrel.quiet (p := p) rfl rfl rfl (Frame.setRaft _ _ _) hrel.calls rfl hrel.applied⟩
  | stop p rsm calls h =>
    have hstep : W.exec machine maxraftstate (.stop p) =
        some { W.setRSM p rsm with calls := calls } := by
      simp [World.exec, hrel.calls, hrel.rsm, h]
    exact ⟨_, one_step hstep trivial,
      hrel.quiet (p := p) rfl rfl rfl same rfl rfl hrel.applied⟩
  | restart p raft h =>
    cases h
    -- Raft may have installed a leader's snapshot since, so the simpler system does that first
    have hinstall : W.exec machine maxraftstate
        (.install p (w.raft.procs p).rf.persister.snapshot) = some _ := rfl
    have hrestart : (W.setServer p { W.servers p with
        persisted := (w.raft.procs p).rf.persister.snapshot }).exec machine maxraftstate
        (.restart p) = some _ := rfl
    refine ⟨_, (one_step hinstall trivial).trans (one_step hrestart trivial), ?_⟩
    refine hrel.move (p := p) (x := ⟨RSM.makeRSM machine p (w.raft.procs p).rf.persister.snapshot,
      (W.servers p).epoch + 1, (w.raft.procs p).rf.persister.snapshot⟩) ?_ rfl ?_ ?_ hrel.calls
      hrel.decided hrel.applied
    · simp [World.setServer]
    · simp [Cluster.setProc, RaftCluster.boot, hrel.epoch]
    · intro q hq
      simp [Cluster.setProc, hq]

end steps

section runs
variable {tr : List (Transition (Stack n R V B St) (Label n R))}

theorem rel_initial (machine : StateMachine R V B St) :
    Rel machine (initial machine : Stack n R V B St) (RsmCluster.initial machine) :=
  ⟨fun _ => rfl, fun _ => rfl, rfl, fun _ => rfl, fun _ ha => by cases ha⟩

variable [DecidableEq R]

theorem agreedLog_inv {past : List (Transition (World n R V B St) (RsmCluster.Label n R B))}
    (run : Run (agreedLog n machine maxraftstate) past W) : RsmReplies.Inv W := by
  refine run.invariant ?_ ?_
  · rintro _ rfl
    exact RsmReplies.inv_initial
  · exact fun _ _ _ hi h => RsmReplies.inv_exec hi h.2 h.1

end runs

def execFresh (machine : StateMachine R V B St) (maxraftstate : ℤ) (w : Stack n R V B St)
    (l : Label n R) : Option (Stack n R V B St) :=
  if Fresh w l then w.exec machine maxraftstate l else none

theorem execFresh_step {l : Label n R} (h : execFresh machine maxraftstate w l = some u) :
    ((stack n machine maxraftstate).guarded Fresh).step w l u := by
  unfold execFresh at h
  split_ifs at h with hfresh
  exact ⟨h, hfresh⟩

end DistributedLabs.RsmRefinement
