import Apfs.Block.Cache
import Apfs.Proofs.Tree.Storage

namespace Apfs

/-!
# Cached blocks are the blocks

A cache keeps blocks that were read, and drops some of them again.  What it keeps is what the
reader gives, whatever its capacity is, so that nobody can tell which blocks were kept.

* `BlockCache.evict_sound`, `BlockCache.insert_sound` — dropping blocks and keeping one more.
* `BlockSource.Keeps` — all blocks in a cache are those of the source.
* `after_cached` — the state after a cached reading.
* `agree_cached` — cached readings agree with those of the reader.
* `BlockSource.cached` — the blocks of a source, with a cache; `BlockSource.Alike.cached` and
  `BlockSource.AlikeVerified.cached` — sources are as much alike with caches as without.
-/

variable {σ τ : Type}

namespace BlockCache

/-- Dropping blocks leaves no others. -/
theorem evict_sound (capacity : Nat) (blocks : Std.HashMap BlockAddress ByteArray)
    (order : List BlockAddress) {address : BlockAddress} {data : ByteArray}
    (h : (evict capacity blocks order).blocks[address]? = some data) :
    blocks[address]? = some data := by
  induction order generalizing blocks with
  | nil => exact h
  | cons oldest order ih =>
    rw [evict] at h
    by_cases hsize : blocks.size ≤ capacity
    · rwa [if_pos hsize] at h
    · rw [if_neg hsize] at h
      have herase := ih _ h
      rw [Std.HashMap.getElem?_erase] at herase
      by_cases heq : oldest == address
      · rw [if_pos heq] at herase
        cases herase
      · rwa [if_neg heq] at herase

/-- What is kept after one block more is that block, or was kept before. -/
theorem insert_sound (c : BlockCache) (capacity : Option Nat) (inserted : BlockAddress)
    (block : ByteArray) {address : BlockAddress} {data : ByteArray}
    (h : (c.insert capacity inserted block).blocks[address]? = some data) :
    address = inserted ∧ data = block ∨ c.blocks[address]? = some data := by
  have hcases : c.blocks[address]? = some data ∨
      (c.blocks.insert inserted block)[address]? = some data := by
    rcases capacity with _ | _ | n
    · exact .inr h
    · exact .inl h
    · exact .inr (evict_sound _ _ _ h)
  rcases hcases with h | h
  · exact .inr h
  · rw [Std.HashMap.getElem?_insert] at h
    by_cases heq : inserted == address
    · rw [if_pos heq] at h
      exact .inl ⟨(eq_of_beq heq).symm, (Option.some.inj h).symm⟩
    · rw [if_neg heq] at h
      exact .inr h

end BlockCache

namespace BlockReader

/-- A block that is kept is given without a reading. -/
theorem cached_of_some {reader : BlockReader σ} {capacity : Option Nat} {address : BlockAddress}
    {s : σ} {c : BlockCache} {data : ByteArray} (h : c.blocks[address]? = some data) :
    (reader.cached capacity).read address (s, c) = .ok data (s, c) := by
  unfold BlockReader.cached
  simp only [bind, EStateM.bind, get, getThe, MonadStateOf.get, EStateM.get, h]
  rfl

/-- A block that is not kept is read, and then kept if there is room. -/
theorem cached_of_none (reader : BlockReader σ) (capacity : Option Nat) {address : BlockAddress}
    {s : σ} {c : BlockCache} (h : c.blocks[address]? = none) :
    outcome ((reader.cached capacity).read address) (s, c) = outcome (reader.read address) s ∧
      after ((reader.cached capacity).read address) (s, c)
        = (after (reader.read address) s, match outcome (reader.read address) s with
          | .ok data => c.insert capacity address data
          | .error _ => c) := by
  unfold BlockReader.cached outcome after
  simp only [bind, EStateM.bind, get, getThe, MonadStateOf.get, EStateM.get, h, onFirst]
  cases reader.read address s <;> exact ⟨rfl, rfl⟩

end BlockReader

/-- The state after a reading through a cache. -/
theorem after_cached (reader : BlockReader σ) (capacity : Option Nat) (address : BlockAddress)
    (s : σ) (c : BlockCache) :
    after ((reader.cached capacity).read address) (s, c) =
      match c.blocks[address]?, outcome (reader.read address) s with
      | some _, _ => (s, c)
      | none, .ok data => (after (reader.read address) s, c.insert capacity address data)
      | none, .error _ => (after (reader.read address) s, c) := by
  cases hkept : c.blocks[address]? with
  | some data => rw [after, BlockReader.cached_of_some hkept]
  | none =>
    rw [(BlockReader.cached_of_none reader capacity hkept).2]
    cases outcome (reader.read address) s <;> rfl

namespace BlockSource

variable (B : BlockSource σ)

/-- All blocks in the cache are those of the source. -/
def Keeps (c : BlockCache) : Prop :=
  ∀ address data, c.blocks[address]? = some data →
    ∃ s, B.Valid s ∧ outcome (B.reader.read address) s = .ok data

/-- Nothing is kept at first. -/
theorem keeps_empty : B.Keeps .empty := by
  intro address data h
  simp [BlockCache.empty] at h

/-- A block that was read may be kept. -/
theorem Keeps.insert {c : BlockCache} (hc : B.Keeps c) (capacity : Option Nat)
    {address : BlockAddress} {data : ByteArray} {s : σ} (hs : B.Valid s)
    (hread : outcome (B.reader.read address) s = .ok data) :
    B.Keeps (c.insert capacity address data) := by
  intro address' data' h
  rcases c.insert_sound capacity address data h with ⟨rfl, rfl⟩ | h
  · exact ⟨s, hs, hread⟩
  · exact hc address' data' h

/-- **Cached readings agree with those of the reader**, whatever the capacity is. -/
theorem agree_cached (capacity : Option Nat) (address : BlockAddress) :
    Agree (fun p s => (B.Valid p.1 ∧ B.Keeps p.2) ∧ B.Valid s)
      ((B.reader.cached capacity).read address) (B.reader.read address) := by
  rintro ⟨s₀, c⟩ s ⟨⟨hs₀, hc⟩, hs⟩
  have hsteady := B.steady_read address
  have hafter : B.Valid (after (B.reader.read address) s) := hsteady.valid_after hs
  cases hget : c.blocks[address]? with
  | some data =>
    obtain ⟨t, ht, hread⟩ := hc _ _ hget
    rw [outcome, after, BlockReader.cached_of_some hget]
    exact ⟨hread.symm.trans (hsteady.outcome_eq ht hs), ⟨hs₀, hc⟩, hafter⟩
  | none =>
    obtain ⟨hout, hstate⟩ := BlockReader.cached_of_none B.reader capacity (s := s₀) hget
    refine ⟨hout.trans (hsteady.outcome_eq hs₀ hs), ?_, hafter⟩
    rw [hstate]
    refine ⟨hsteady.valid_after hs₀, ?_⟩
    -- Only a block that was read is kept.
    cases hread : outcome (B.reader.read address) s₀ with
    | ok data => exact hc.insert B capacity hs₀ hread
    | error e => exact hc

/-- The blocks of a source, with a cache. -/
def cached (capacity : Option Nat) : BlockSource (σ × BlockCache) where
  reader := B.reader.cached capacity
  Valid p := B.Valid p.1 ∧ B.Keeps p.2
  steady_read address :=
    Steady.of_agree Prod.fst (fun _ h => h.1) (B.agree_cached capacity address)

/-- A cache may start without any blocks. -/
theorem valid_cached_empty {capacity : Option Nat} {s : σ} (hs : B.Valid s) :
    (B.cached capacity).Valid (s, .empty) :=
  ⟨hs, B.keeps_empty⟩

/-- What is read verified through a cache is what is read verified without it. -/
theorem agree_readVerified_cached (capacity : Option Nat) (address : BlockAddress) :
    Agree (fun p s => (B.Valid p.1 ∧ B.Keeps p.2) ∧ B.Valid s)
      ((B.cached capacity).reader.readVerified address) (B.reader.readVerified address) :=
  agree_of_agreeUpTo (agreeUpTo_readVerified (.of_agree (B.agree_cached capacity address)))

variable {B} {E : Error → Error → Prop} {B' : BlockSource τ}

/-- Sources are as much alike with caches as without. -/
theorem Alike.cached (h : B.Alike E B') (capacity capacity' : Option Nat) :
    (B.cached capacity).Alike E (B'.cached capacity') :=
  fun address => (h address).transfer Prod.fst (fun _ hs => hs.1) (B.agree_cached capacity address)
    Prod.fst (fun _ hs => hs.1) (B'.agree_cached capacity' address)

/-- Sources are as much alike in what is verified with caches as without. -/
theorem AlikeVerified.cached (h : B.AlikeVerified E B') (capacity capacity' : Option Nat) :
    (B.cached capacity).AlikeVerified E (B'.cached capacity') :=
  fun address => (h address).transfer Prod.fst (fun _ hs => hs.1)
    (B.agree_readVerified_cached capacity address) Prod.fst (fun _ hs => hs.1)
    (B'.agree_readVerified_cached capacity' address)

end BlockSource

end Apfs
