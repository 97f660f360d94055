import Apfs.Proofs.ObjectMap.Agreement
import Apfs.Proofs.Tree.Storage

namespace Apfs

/-!
# Resolvers give what their object maps give

A resolver may remember mappings.  All that it remembers is what the object map answers, so that
nobody can tell whether an answer was remembered.

* `Resolver.Valid` — what is remembered is right.
* `agree_lookup` — a resolver agrees with its object map.
* `Resolver.serve`, `valid_serve` — whatever is asked, what is remembered stays right.
* `BlockSource.withMap`, `BlockSource.withResolver` — storage for trees with virtual children.
-/

variable {σ τ : Type}

variable (B : BlockSource σ)

/-- Any lookup in an object map gives the same. -/
theorem BlockSource.steady_latest? (m : ObjectMap) (object : VirtualId)
    (transaction : TransactionId) :
    Steady B.Valid (m.latest? B.reader object transaction) :=
  agree_of_agreeUpTo (agreeUpTo_latest? (fun address =>
    agreeUpTo_readVerified (.of_agree (B.steady_read address))) m object transaction)

/-- The blocks of a source, with the objects of an object map. -/
def BlockSource.withMap (m : ObjectMap) : Storage σ where
  toBlockSource := B
  lookup := m.latest? B.reader
  steady_lookup := B.steady_latest? m

namespace Resolver

variable (r : Resolver)

/-- The states of a resolver in which all that is remembered is what the object map gives. -/
def Valid (p : σ × AddressCache) : Prop :=
  B.Valid p.1 ∧ ∀ (key : ObjectMapKey) mapping, p.2[key]? = some mapping → ∃ s, B.Valid s ∧
    outcome (r.map.latest? B.reader key.object key.transaction) s = .ok (some mapping)

/-- Nothing is remembered at first. -/
theorem valid_empty {s : σ} (hs : B.Valid s) : r.Valid B (s, ∅) := by
  refine ⟨hs, fun key mapping h => ?_⟩
  rw [Std.HashMap.getElem?_empty] at h
  cases h

/-- A lookup either gives what is remembered, or it is one in the object map. -/
theorem lookup_cases (reader : BlockReader σ) (object : VirtualId) (transaction : TransactionId)
    (s : σ) (cache : AddressCache) :
    (∃ mapping, cache[(⟨object, transaction⟩ : ObjectMapKey)]? = some mapping ∧
      r.lookup reader object transaction (s, cache) = .ok (some mapping) (s, cache)) ∨
    outcome (r.lookup reader object transaction) (s, cache)
        = outcome (r.map.latest? reader object transaction) s ∧
      after (r.lookup reader object transaction) (s, cache)
        = (after (r.map.latest? reader object transaction) s,
          match outcome (r.map.latest? reader object transaction) s with
          | .ok (some mapping) =>
            if r.remembers then cache.insert ⟨object, transaction⟩ mapping else cache
          | _ => cache) := by
  unfold Resolver.lookup outcome after
  by_cases hr : r.remembers
  · simp only [hr, bind, EStateM.bind, get, getThe, MonadStateOf.get, EStateM.get, if_true]
    cases cache[(⟨object, transaction⟩ : ObjectMapKey)]? with
    | some mapping => exact .inl ⟨mapping, rfl, rfl⟩
    | none =>
      refine .inr ?_
      simp only [EStateM.bind, onFirst]
      cases r.map.latest? reader object transaction s with
      | error e s' => exact ⟨rfl, rfl⟩
      | ok found s' => cases found <;> exact ⟨rfl, rfl⟩
  · refine .inr ?_
    simp only [hr, Bool.false_eq_true, if_false, bind, EStateM.bind, onFirst]
    cases r.map.latest? reader object transaction s with
    | error e s' => exact ⟨rfl, rfl⟩
    | ok found s' => cases found <;> exact ⟨rfl, rfl⟩

/-- What is remembered after a lookup was remembered before, or it is what was looked up and
    found. -/
theorem remembered_of_lookup {reader : BlockReader σ} {object : VirtualId}
    {transaction : TransactionId} {s : σ} {cache : AddressCache} {key : ObjectMapKey}
    {mapping : ObjectMapKey × ObjectMapValue}
    (h : (after (r.lookup reader object transaction) (s, cache)).2[key]? = some mapping) :
    cache[key]? = some mapping ∨ key = ⟨object, transaction⟩ ∧
      outcome (r.map.latest? reader object transaction) s = .ok (some mapping) := by
  rcases r.lookup_cases reader object transaction s cache with ⟨_, -, hhit⟩ | ⟨-, hstate⟩
  · rw [after, hhit] at h
    exact .inl h
  · rw [hstate] at h
    split at h
    · next found hfound =>
      by_cases hr : r.remembers
      · rw [if_pos hr, Std.HashMap.getElem?_insert] at h
        by_cases heq : (⟨object, transaction⟩ : ObjectMapKey) == key
        · rw [if_pos heq] at h
          exact .inr ⟨(eq_of_beq heq).symm, Option.some.inj h ▸ hfound⟩
        · rw [if_neg heq] at h
          exact .inl h
      · rw [if_neg hr] at h
        exact .inl h
    · exact .inl h

/-- A mapping that is found is remembered, if mappings are. -/
theorem remembers_of_lookup (hr : r.remembers = true) {reader : BlockReader σ} {object : VirtualId}
    {transaction : TransactionId} {p : σ × AddressCache} {mapping : ObjectMapKey × ObjectMapValue}
    (h : outcome (r.lookup reader object transaction) p = .ok (some mapping)) :
    (after (r.lookup reader object transaction) p).2[(⟨object, transaction⟩ : ObjectMapKey)]?
      = some mapping := by
  obtain ⟨s, cache⟩ := p
  rcases r.lookup_cases reader object transaction s cache with ⟨known, hget, hhit⟩ | ⟨hout, hstate⟩
  · rw [outcome, hhit] at h
    rw [after, hhit, hget]
    exact Except.ok.inj h
  · rw [hstate, ← hout, h]
    dsimp only
    rw [if_pos hr]
    exact Std.HashMap.getElem?_insert_self

/-- **A resolver agrees with its object map**, whether or not it remembers mappings. -/
theorem agree_lookup (object : VirtualId) (transaction : TransactionId) :
    Agree (fun p s => r.Valid B p ∧ B.Valid s) (r.lookup B.reader object transaction)
      (r.map.latest? B.reader object transaction) := by
  rintro ⟨s₀, cache⟩ s ⟨hp, hs⟩
  have hsteady := B.steady_latest? r.map object transaction
  have hafter : B.Valid (after (r.map.latest? B.reader object transaction) s) :=
    hsteady.valid_after hs
  rcases r.lookup_cases B.reader object transaction s₀ cache with
    ⟨mapping, hget, hhit⟩ | ⟨hout, hstate⟩
  · obtain ⟨t, ht, hfound⟩ := hp.2 _ _ hget
    rw [outcome, after, hhit]
    exact ⟨hfound.symm.trans (hsteady.outcome_eq ht hs), hp, hafter⟩
  · refine ⟨hout.trans (hsteady.outcome_eq hp.1 hs), ⟨?_, fun key mapping hget => ?_⟩, hafter⟩
    · rw [hstate]
      exact hsteady.valid_after hp.1
    -- Only a mapping that was found is remembered.
    · rcases r.remembered_of_lookup hget with hget | ⟨rfl, hfound⟩
      · exact hp.2 key mapping hget
      · exact ⟨s₀, hp.1, hfound⟩

/-- Any lookup of a resolver gives the same, whatever it remembers. -/
theorem steady_lookup (object : VirtualId) (transaction : TransactionId) :
    Steady (r.Valid B) (r.lookup B.reader object transaction) :=
  Steady.of_agree Prod.fst (fun _ h => h.1) (r.agree_lookup B object transaction)

/-- Any request gives the same, whatever is remembered. -/
theorem steady_resolve (object : VirtualId) (transaction : TransactionId) :
    Steady (r.Valid B) (r.resolve B.reader object transaction) :=
  (r.steady_lookup B object transaction).bind fun _ => .pure _

/-- A request for an address leaves behind what a lookup does. -/
theorem after_resolve (reader : BlockReader σ) (object : VirtualId) (transaction : TransactionId)
    (p : σ × AddressCache) :
    after (r.resolve reader object transaction) p
      = after (r.lookup reader object transaction) p := by
  unfold Resolver.resolve
  rw [after_bind]
  cases outcome (r.lookup reader object transaction) p <;> rfl

/-! ### Serving requests -/

/-- The state after a resolver was asked for objects, one after the other. -/
def serve (reader : BlockReader σ) (p : σ × AddressCache)
    (asked : List (VirtualId × TransactionId)) : σ × AddressCache :=
  asked.foldl (fun p (object, transaction) => after (r.resolve reader object transaction) p) p

/-- **Whatever a resolver was asked for**, all that it remembers is right. -/
theorem valid_serve {p : σ × AddressCache} (hp : r.Valid B p)
    (asked : List (VirtualId × TransactionId)) : r.Valid B (r.serve B.reader p asked) := by
  induction asked generalizing p with
  | nil => exact hp
  | cons request asked ih =>
    refine ih ?_
    show r.Valid B (after (r.resolve B.reader request.1 request.2) p)
    exact (r.steady_resolve B request.1 request.2).valid_after hp

/-- **A resolver gives the address** of the mapping that the object map gives. -/
theorem outcome_resolve {p : σ × AddressCache} {s : σ} (hp : r.Valid B p) (hs : B.Valid s)
    (object : VirtualId) (transaction : TransactionId) :
    outcome (r.resolve B.reader object transaction) p
      = (outcome (r.map.latest? B.reader object transaction) s).map
        (Option.map fun (_, value) => value.address) := by
  unfold Resolver.resolve
  rw [outcome_bind, (r.agree_lookup B object transaction ⟨hp, hs⟩).1]
  cases outcome (r.map.latest? B.reader object transaction) s <;> rfl

end Resolver

/-- The blocks of a source, with the objects of a resolver. -/
def BlockSource.withResolver (r : Resolver) : Storage (σ × AddressCache) where
  reader := B.reader.extend AddressCache
  Valid := r.Valid B
  steady_read address := by
    rintro p q ⟨hp, hq⟩
    obtain ⟨hout, hpvalid, hqvalid⟩ := B.steady_read address ⟨hp.1, hq.1⟩
    rw [BlockReader.extend, outcome_onFirst, outcome_onFirst, after_onFirst, after_onFirst]
    exact ⟨hout, ⟨hpvalid, hp.2⟩, hqvalid, hq.2⟩
  lookup := r.lookup B.reader
  steady_lookup := r.steady_lookup B

end Apfs
