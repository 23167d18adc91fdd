import Mathlib.Logic.Function.Basic
import Mathlib.Data.Nat.Notation

set_option autoImplicit false

/-! The versioned map of `kvsrv1/server.go` and the errors of `kvsrv1/rpc`. A version is a
`uint64` in the source and a natural number here, so that the next version is always a
greater one. -/
namespace DistributedLabs.KvServer

inductive Err where
  | ok | errNoKey | errVersion | errMaybe | errWrongLeader | errWrongGroup
deriving DecidableEq

structure KvEntry (V : Type) where
  value : V
  version : ℕ
deriving DecidableEq

variable {K V : Type} [DecidableEq K]

def get (kv : K → Option (KvEntry V)) (key : K) : Option (KvEntry V) × Err :=
  match kv key with
  | none => (none, .errNoKey)
  | some e => (some e, .ok)

def put (kv : K → Option (KvEntry V)) (key : K) (value : V) (version : ℕ) :
    (K → Option (KvEntry V)) × Err :=
  match kv key with
  | none =>
    if version = 0 then (Function.update kv key (some ⟨value, 1⟩), .ok) else (kv, .errNoKey)
  | some e =>
    if version ≠ e.version then (kv, .errVersion)
    else (Function.update kv key (some ⟨value, e.version + 1⟩), .ok)

omit [DecidableEq K] in
theorem get_spec (kv : K → Option (KvEntry V)) (key : K) :
    (get kv key).1 = kv key ∧ ((kv key = none ∧ (get kv key).2 = .errNoKey) ∨
      (kv key ≠ none ∧ (get kv key).2 = .ok)) := by
  unfold get
  cases kv key <;> simp

def Matches (ver : ℕ) : Option (KvEntry V) → Prop
  | none => ver = 0
  | some e => e.version = ver

theorem put_spec (kv : K → Option (KvEntry V)) (key : K) (value : V) (ver : ℕ) :
    (∃ err, err ≠ .ok ∧ put kv key value ver = (kv, err)) ∨
      Matches ver (kv key) ∧
        put kv key value ver = (Function.update kv key (some ⟨value, ver + 1⟩), .ok) := by
  unfold put Matches
  cases kv key with
  | none =>
    by_cases h : ver = 0
    · subst h
      exact .inr ⟨rfl, rfl⟩
    · refine .inl ⟨.errNoKey, by decide, ?_⟩
      simp only [h, if_false]
  | some e =>
    by_cases h : e.version = ver
    · subst h
      refine .inr ⟨rfl, ?_⟩
      simp only [ne_eq, not_true_eq_false, if_false]
    · refine .inl ⟨.errVersion, by decide, ?_⟩
      simp only [ne_eq, Ne.symm h, not_false_eq_true, if_true]

theorem put_ok {kv kv' : K → Option (KvEntry V)} {key : K} {value : V} {ver : ℕ}
    (h : put kv key value ver = (kv', .ok)) :
    Matches ver (kv key) ∧ kv' = Function.update kv key (some ⟨value, ver + 1⟩) := by
  rcases put_spec kv key value ver with ⟨err, herr, hput⟩ | ⟨hm, hput⟩
  · rw [hput] at h
    cases h
    exact absurd rfl herr
  · rw [hput] at h
    cases h
    exact ⟨hm, rfl⟩

/-- Every Go map is finite. -/
def FiniteMap (kv : K → Option (KvEntry V)) : Prop :=
  ∃ keys : List K, ∀ key, kv key ≠ none → key ∈ keys

theorem FiniteMap.update {kv : K → Option (KvEntry V)} (h : FiniteMap kv) (key : K) (e : KvEntry V) :
    FiniteMap (Function.update kv key (some e)) := by
  obtain ⟨keys, hkeys⟩ := h
  refine ⟨key :: keys, fun k hk => ?_⟩
  by_cases he : k = key
  · exact List.mem_cons.mpr (.inl he)
  · rw [Function.update_of_ne he] at hk
    exact List.mem_cons.mpr (.inr (hkeys k hk))

theorem FiniteMap.put {kv : K → Option (KvEntry V)} (h : FiniteMap kv) (key : K) (value : V)
    (version : ℕ) : FiniteMap (put kv key value version).1 := by
  rcases put_spec kv key value version with ⟨err, _, hput⟩ | ⟨_, hput⟩
  · rw [hput]
    exact h
  · rw [hput]
    exact h.update key _

def versionOf : Option (KvEntry V) → ℕ
  | none => 0
  | some e => e.version

theorem Matches.versionOf {ver : ℕ} {e : Option (KvEntry V)} (h : Matches ver e) :
    KvServer.versionOf e = ver := by
  cases e with
  | none => exact h.symm
  | some e => exact h

/-- One entry, or a later one of the same key. -/
inductive Later : Option (KvEntry V) → Option (KvEntry V) → Prop where
  | same (e : Option (KvEntry V)) : Later e e
  | first {e : KvEntry V} (h : 1 ≤ e.version) : Later none (some e)
  | newer {e e' : KvEntry V} (h : e.version < e'.version) : Later (some e) (some e')

theorem Later.trans {e e' e'' : Option (KvEntry V)} (h : Later e e') (h' : Later e' e'') :
    Later e e'' := by
  cases h with
  | same => exact h'
  | first hv =>
    cases h' with
    | same => exact .first hv
    | newer hlt => exact .first (by omega)
  | newer hv =>
    cases h' with
    | same => exact .newer hv
    | newer hlt => exact .newer (by omega)

theorem Later.versionOf_le {e e' : Option (KvEntry V)} (h : Later e e') :
    versionOf e ≤ versionOf e' := by
  cases h with
  | same => exact Nat.le_refl _
  | first hv => exact Nat.zero_le _
  | newer hv => exact Nat.le_of_lt hv

theorem Matches.later {ver : ℕ} {e : Option (KvEntry V)} (h : Matches ver e) (value : V) :
    Later e (some ⟨value, ver + 1⟩) := by
  cases e with
  | none => exact .first (Nat.succ_le_succ (Nat.zero_le _))
  | some e =>
    cases h
    exact .newer (Nat.lt_succ_self _)

/-- A version that was read when `P` held of the value: while it is still current, it
    does. -/
def Fenced (P : V → Prop) (ver : ℕ) : Option (KvEntry V) → Prop
  | none => ver = 0
  | some e => ver ≤ e.version ∧ (e.version = ver → P e.value)

theorem Fenced.later {P : V → Prop} {ver : ℕ} {e e' : Option (KvEntry V)}
    (h : Fenced P ver e) (hl : Later e e') : Fenced P ver e' := by
  cases hl with
  | same => exact h
  | first hv =>
    cases h
    exact ⟨Nat.zero_le _, fun heq => absurd heq (Nat.ne_of_gt hv)⟩
  | newer hv =>
    have hle := h.1
    exact ⟨by omega, fun heq => by omega⟩

end DistributedLabs.KvServer
