import DistributedLabs.KvServer
import DistributedLabs.Retries

set_option autoImplicit false

/-!
# Operations on the versioned map and what a clerk makes of their replies

Both servers apply one operation at a time to the map of `KvServer`, and both clerks
repeat a request until it is answered. Here is what they share: the operations, the
clerks' treatment of a reply, the sequential map a client may rely on, and why a `Put`
that is executed again cannot write again: it has moved the version past its own.
-/
namespace DistributedLabs.KvCalls
open KvServer Linearizability Retries

abbrev Store (K V : Type) := K → Option (KvEntry V)

inductive Op (K V : Type) where
  | get (key : K)
  | put (key : K) (value : V) (version : ℕ)
deriving DecidableEq

inductive Reply (V : Type) where
  | get (entry : Option (KvEntry V)) (err : Err)
  | put (err : Err)
deriving DecidableEq

variable {K V : Type}

def Op.key : Op K V → K
  | .get key => key
  | .put key _ _ => key

def putResult (resent : Bool) (err : Err) : Err :=
  if err = .errVersion ∧ resent = true then .errMaybe else err

def clerkResult (resent : Bool) : Reply V → Reply V
  | .get entry err => .get entry err
  | .put err => .put (putResult resent err)

/-- The key has gone past the version that the write asks for. -/
def Spent : Op K V → Store K V → Prop
  | .get _, _ => False
  | .put key _ version, kv => ∃ e, kv key = some e ∧ version < e.version

theorem Spent.later {key : K} {value : V} {version : ℕ} {kv kv' : Store K V}
    (h : Spent (.put key value version) kv) (hl : Later (kv key) (kv' key)) :
    Spent (.put key value version) kv' := by
  obtain ⟨e, he, hlt⟩ := h
  rw [he] at hl
  generalize hk : kv' key = x at hl
  cases hl with
  | same => exact ⟨e, hk, hlt⟩
  | newer hv => exact ⟨_, hk, by omega⟩

section store
variable [DecidableEq K]

def doOp (kv : Store K V) : Op K V → Store K V × Reply V
  | .get key => (kv, .get (get kv key).1 (get kv key).2)
  | .put key value version =>
    ((put kv key value version).1, .put (put kv key value version).2)

/-- The map a client may rely on. `ErrMaybe` leaves open whether the write was made. -/
def versionedMap (K V : Type) [DecidableEq K] : Spec (Store K V) (Op K V) (Reply V) where
  init := fun _ => none
  step kv op res kv' :=
    match op, res with
    | .get key, .get entry err => kv' = kv ∧ entry = kv key ∧
      ((entry ≠ none ∧ err = .ok) ∨ (entry = none ∧ err = .errNoKey))
    | .put key value version, .put err =>
      (Matches version (kv key) ∧ kv' = Function.update kv key (some ⟨value, version + 1⟩) ∧
        (err = .ok ∨ err = .errMaybe)) ∨
      (¬ Matches version (kv key) ∧ kv' = kv ∧
        ((kv key = none ∧ err = .errNoKey) ∨
          (kv key ≠ none ∧ (err = .errVersion ∨ err = .errMaybe))))
    | _, _ => False

def kvService (K V : Type) [DecidableEq K] : Service (Store K V) (Op K V) (Reply V) (Reply V) where
  init := fun _ => none
  apply op kv := doOp kv op
  changes _ t :=
    match t with
    | .put .ok => true
    | _ => false
  finish _ resent t := clerkResult resent t

theorem put_cases (kv : Store K V) (key : K) (value : V) (version : ℕ) :
    (Matches version (kv key) ∧
      put kv key value version = (Function.update kv key (some ⟨value, version + 1⟩), .ok)) ∨
    (¬ Matches version (kv key) ∧ kv key = none ∧ put kv key value version = (kv, .errNoKey)) ∨
    (¬ Matches version (kv key) ∧ kv key ≠ none ∧
      put kv key value version = (kv, .errVersion)) := by
  unfold put Matches
  cases hk : kv key with
  | none =>
    by_cases h : version = 0
    · subst h
      exact .inl ⟨rfl, rfl⟩
    · exact .inr (.inl ⟨h, rfl, by simp [h]⟩)
  | some e =>
    by_cases h : e.version = version
    · subst h
      exact .inl ⟨rfl, by simp⟩
    · exact .inr (.inr ⟨h, by simp, by simp [Ne.symm h]⟩)

theorem put_of_changes {kv : Store K V} {key : K} {value : V} {version : ℕ}
    (h : (kvService K V).changes (.put key value version)
      (doOp kv (.put key value version)).2 = true) :
    Matches version (kv key) ∧
      put kv key value version = (Function.update kv key (some ⟨value, version + 1⟩), .ok) := by
  rcases put_cases kv key value version with hok | ⟨_, _, hput⟩ | ⟨_, _, hput⟩
  · exact hok
  · simp [kvService, doOp, hput] at h
  · simp [kvService, doOp, hput] at h

theorem doOp_later (kv : Store K V) (op : Op K V) (key : K) :
    Later (kv key) ((doOp kv op).1 key) := by
  cases op with
  | get k => exact .same _
  | put k value version =>
    change Later (kv key) ((put kv k value version).1 key)
    rcases put_cases kv k value version with ⟨hm, hput⟩ | ⟨_, _, hput⟩ | ⟨_, _, hput⟩
    · rw [hput]
      dsimp only
      by_cases hk : key = k
      · subst hk
        rw [Function.update_self]
        exact hm.later value
      · rw [Function.update_of_ne hk]
        exact .same _
    · rw [hput]
      exact .same _
    · rw [hput]
      exact .same _

theorem Spent.put_eq {key : K} {value : V} {version : ℕ} {kv : Store K V}
    (h : Spent (.put key value version) kv) : put kv key value version = (kv, .errVersion) := by
  obtain ⟨e, he, hlt⟩ := h
  unfold put
  rw [he]
  have hne : version ≠ e.version := by omega
  simp only [hne, ne_eq, not_false_eq_true, if_true]

theorem kv_lawful : Lawful (kvService K V) (versionedMap K V) Spent where
  init := rfl
  now op kv resent := by
    cases op with
    | get key =>
      obtain ⟨hentry, herr⟩ := get_spec kv key
      refine ⟨rfl, hentry, ?_⟩
      rw [hentry]
      exact herr.symm
    | put key value version =>
      change (Matches version (kv key) ∧ (put kv key value version).1 = _ ∧ _) ∨
        (¬ Matches version (kv key) ∧ (put kv key value version).1 = kv ∧
          ((kv key = none ∧ putResult resent (put kv key value version).2 = _) ∨ _))
      rcases put_cases kv key value version with ⟨hm, hput⟩ | ⟨hm, hk, hput⟩ | ⟨hm, hk, hput⟩
      · simp [hput, hm, putResult]
      · rw [hk] at hm
        simp [hput, hm, hk, putResult]
      · cases resent <;> simp [hput, hm, hk, putResult]
  quiet op kv hch := by
    cases op with
    | get key => rfl
    | put key value version =>
      change (put kv key value version).1 = kv
      rcases put_cases kv key value version with ⟨_, hput⟩ | ⟨_, _, hput⟩ | ⟨_, _, hput⟩
      · simp [kvService, doOp, hput] at hch
      · rw [hput]
      · rw [hput]
  spends op kv hch := by
    cases op with
    | get key => cases hch
    | put key value version =>
      change ∃ e, (put kv key value version).1 key = some e ∧ version < e.version
      rw [(put_of_changes hch).2]
      exact ⟨_, Function.update_self .., Nat.lt_succ_self _⟩
  keeps op op' kv h := by
    cases op with
    | get key => cases h
    | put key value version => exact h.later (doOp_later kv op' key)
  idle op kv h := by
    cases op with
    | get key => cases h
    | put key value version => simp [kvService, doOp, h.put_eq]
  later op kv kv' hch h := by
    cases op with
    | get key => cases h
    | put key value version =>
      -- the write was made, and the reply to the repetition is ErrVersion
      obtain ⟨hm, hput⟩ := put_of_changes hch
      refine .inl ⟨hm, ?_, .inr ?_⟩
      · simp [kvService, doOp, hput]
      · simp [h.put_eq, putResult]

/-- An execution changes the entry of its key exactly when its reply says so. -/
theorem doOp_key_ne_iff (kv : Store K V) (op : Op K V) :
    (doOp kv op).1 op.key ≠ kv op.key ↔ (kvService K V).changes op (doOp kv op).2 = true := by
  cases op with
  | get key => simp [doOp, kvService]
  | put key value version =>
    rcases put_cases kv key value version with ⟨hm, hput⟩ | ⟨_, _, hput⟩ | ⟨_, _, hput⟩
    · have hne : some (⟨value, version + 1⟩ : KvEntry V) ≠ kv key := by
        intro heq
        rw [← heq] at hm
        exact absurd hm (by simp [Matches])
      simpa [doOp, kvService, hput, Op.key] using hne
    · simp [doOp, kvService, hput]
    · simp [doOp, kvService, hput]

/-- The result of `Clerk.Put` tells the truth about the executions of its request. -/
structure Truthful (err : Err) (effects : ℕ) : Prop where
  known : err = .ok ∨ err = .errVersion ∨ err = .errNoKey ∨ err = .errMaybe
  ok : err = .ok → effects = 1
  failed : err = .errVersion ∨ err = .errNoKey → effects = 0
  maybe : err = .errMaybe → effects ≤ 1

theorem truthful_of_outcome {key : K} {value : V} {version : ℕ} {runs : List (Reply V)} {err : Err}
    (h : Outcome (kvService K V) Spent (.put key value version) runs (.put err)) :
    Truthful err (effects (kvService K V) (.put key value version) runs) := by
  have hle := h.atMostOnce
  obtain ⟨t, older, resent, rfl, hres, hfin, ⟨kv, rfl⟩, hseen⟩ := h.seen
  have herr : err = putResult resent (put kv key value version).2 := Reply.put.inj hfin
  have hch : (kvService K V).changes (.put key value version)
      (doOp kv (.put key value version)).2 = decide ((put kv key value version).2 = .ok) := by
    rcases put_cases kv key value version with ⟨_, hput⟩ | ⟨_, _, hput⟩ | ⟨_, _, hput⟩ <;>
      simp [kvService, doOp, hput]
  -- after an earlier write the last answer is ErrVersion
  have hold : effects (kvService K V) (.put key value version) older = 0 ∨
      (put kv key value version).2 = .errVersion := by
    refine hseen.imp_right fun ⟨_, u, hu, ht⟩ => ?_
    have heq : (put kv key value version).2 = (put u key value version).2 := Reply.put.inj ht
    rw [heq, hu.put_eq]
  have hcount : effects (kvService K V) (.put key value version)
      ((doOp kv (.put key value version)).2 :: older) =
      effects (kvService K V) (.put key value version) older +
        if (put kv key value version).2 = .ok then 1 else 0 := by
    rw [effects_cons, hch]
    simp
  change effects (kvService K V) (.put key value version)
    ((doOp kv (.put key value version)).2 :: older) ≤ 1 at hle
  change Truthful err (effects (kvService K V) (.put key value version)
    ((doOp kv (.put key value version)).2 :: older))
  rw [hcount] at hle ⊢
  rcases put_cases kv key value version with ⟨_, hput⟩ | ⟨_, _, hput⟩ | ⟨_, _, hput⟩
  · have hz := hold.resolve_right (by simp [hput])
    have hok : err = .ok := by simp [herr, hput, putResult]
    subst hok
    exact ⟨.inl rfl, fun _ => by simp [hput, hz], by simp, by simp⟩
  · have hz := hold.resolve_right (by simp [hput])
    have hno : err = .errNoKey := by simp [herr, hput, putResult]
    subst hno
    exact ⟨.inr (.inr (.inl rfl)), by simp, fun _ => by simp [hput, hz], by simp⟩
  · cases resent with
    | false =>
      have hz : older = [] := by simpa using hres
      have hver : err = .errVersion := by simp [herr, hput, putResult]
      subst hver hz
      exact ⟨.inr (.inl rfl), by simp, fun _ => by simp [hput, effects], by simp⟩
    | true =>
      have hmay : err = .errMaybe := by simp [herr, hput, putResult]
      subst hmay
      exact ⟨.inr (.inr (.inr rfl)), by simp, by simp, fun _ => hle⟩

end store
end DistributedLabs.KvCalls
