import Apfs.Proofs.Block.Cache

namespace Apfs

/-!
# The order of a cache

A cache lists its blocks in the order in which they came, and drops the first ones when there is no
room.  The list and the blocks stay in step, so that the cache holds the blocks that came last.

* `newest` — the last elements of a list, as many as there is room for.
* `BlockCache.InStep` — the order lists the blocks that are kept, each of them once.
* `BlockCache.InStep.dropOldest`, `BlockCache.InStep.addNewest` — one block less, one block more.
* `BlockCache.InStep.evict`, `BlockCache.InStep.insert` — the blocks that came last are left.
* `BlockCache.Bounded`, `BlockSource.bounded` — caches that respect their capacity, and the blocks
  of a source with such a cache.
-/

variable {α : Type}

/-! ### Newest elements -/

/-- The last elements of a list, as many as there is room for. -/
def newest : (capacity : Option Nat) → List α → List α
  | none, l => l
  | some n, l => l.drop (l.length - n)

@[simp] theorem length_newest (n : Nat) (l : List α) :
    (newest (some n) l).length = min n l.length := by
  simp only [newest, List.length_drop]
  omega

/-- What came before the newest elements does not matter for those that come later. -/
theorem newest_append (capacity : Option Nat) (l : List α) (a : α) :
    newest capacity (newest capacity l ++ [a]) = newest capacity (l ++ [a]) := by
  cases capacity with
  | none => rfl
  | some n =>
    simp only [newest, List.length_append, List.length_drop, List.length_singleton]
    by_cases hn : l.length < n
    · -- There was room for all of them.
      rw [show l.length - n = 0 by omega, List.drop_zero, Nat.sub_zero]
    · cases n with
      | zero => simp
      | succ n =>
        rw [← List.drop_append_of_le_length (by omega), List.drop_drop]
        congr 1
        omega

/-- There is room for the newest elements. -/
theorem newest_newest (capacity : Option Nat) (l : List α) :
    newest capacity (newest capacity l) = newest capacity l := by
  cases capacity with
  | none => rfl
  | some n =>
    have hroom : (newest (some n) l).length - n = 0 := by
      rw [length_newest]
      omega
    rw [newest, hroom, List.drop_zero]

/-- There is room for the last element of all. -/
theorem mem_newest_append (n : Nat) (l : List α) (a : α) :
    a ∈ newest (some (n + 1)) (l ++ [a]) := by
  rw [newest, List.length_append, List.length_singleton, Nat.add_sub_add_right,
    List.drop_append_of_le_length (Nat.sub_le ..)]
  exact List.mem_append_right _ (List.mem_singleton_self a)

/-! ### Blocks and their order -/

namespace BlockCache

variable {c : BlockCache}

/-- The order lists the blocks that are kept, each of them once. -/
structure InStep (c : BlockCache) : Prop where
  nodup : c.order.Nodup
  mem_iff : ∀ address, address ∈ c.blocks ↔ address ∈ c.order
  size_eq : c.size = c.order.length

theorem inStep_empty : empty.InStep := by
  refine ⟨List.nodup_nil, fun address => ?_, rfl⟩
  simp [empty]

variable {blocks : Std.HashMap BlockAddress ByteArray} {order : List BlockAddress}

/-- The block that came first can go. -/
theorem InStep.dropOldest {oldest : BlockAddress} (h : InStep ⟨blocks, oldest :: order⟩) :
    InStep ⟨blocks.erase oldest, order⟩ := by
  obtain ⟨hnodup, hmem, hsize⟩ := h
  have hgone : oldest ∉ order := (List.nodup_cons.mp hnodup).1
  refine ⟨hnodup.of_cons, fun address => ?_, ?_⟩
  · show address ∈ blocks.erase oldest ↔ address ∈ order
    rw [Std.HashMap.mem_erase, hmem address, List.mem_cons, beq_eq_false_iff_ne]
    constructor
    · rintro ⟨hne, rfl | hin⟩
      · exact absurd rfl hne
      · exact hin
    · intro hin
      exact ⟨fun heq => hgone (heq ▸ hin), .inr hin⟩
  · have holdest : oldest ∈ blocks := (hmem oldest).mpr List.mem_cons_self
    show (blocks.erase oldest).size = order.length
    rw [Std.HashMap.size_erase, if_pos holdest]
    exact congrArg (· - 1) hsize

/-- A block that is not kept can be added. -/
theorem InStep.addNewest (h : c.InStep) {address : BlockAddress} (habsent : address ∉ c.blocks)
    (data : ByteArray) : InStep ⟨c.blocks.insert address data, c.order ++ [address]⟩ := by
  obtain ⟨hnodup, hmem, hsize⟩ := h
  have hfresh : address ∉ c.order := fun hin => habsent ((hmem address).mpr hin)
  refine ⟨by simpa using hnodup.concat hfresh, fun other => ?_, ?_⟩
  · show other ∈ c.blocks.insert address data ↔ other ∈ c.order ++ [address]
    rw [Std.HashMap.mem_insert, hmem other, List.mem_append, List.mem_singleton, beq_iff_eq,
      eq_comm, or_comm]
  · show (c.blocks.insert address data).size = (c.order ++ [address]).length
    rw [Std.HashMap.size_insert, if_neg habsent, List.length_append, List.length_singleton]
    exact congrArg (· + 1) hsize

/-- Dropping blocks leaves those that came last. -/
theorem InStep.evict (h : InStep ⟨blocks, order⟩) (n : Nat) :
    (BlockCache.evict n blocks order).InStep ∧
      (BlockCache.evict n blocks order).order = newest (some n) order := by
  -- Each block that is dropped is the first of the order, which the newest ones do not include.
  induction order generalizing blocks with
  | nil => exact ⟨h, by simp [BlockCache.evict, newest]⟩
  | cons oldest order ih =>
    have hsize : blocks.size = order.length + 1 := h.size_eq
    rw [BlockCache.evict]
    by_cases hroom : blocks.size ≤ n
    · rw [if_pos hroom]
      refine ⟨h, ?_⟩
      rw [newest, List.length_cons, show order.length + 1 - n = 0 by omega, List.drop_zero]
    · rw [if_neg hroom]
      obtain ⟨hin, horder⟩ := ih h.dropOldest
      refine ⟨hin, ?_⟩
      rw [horder, newest, newest, List.length_cons,
        show order.length + 1 - n = (order.length - n) + 1 by omega, List.drop_succ_cons]

/-- **Keeping one block more** puts it at the end of the order, and drops what there is no room
    for. -/
theorem InStep.insert (h : c.InStep) {capacity : Option Nat} {l : List BlockAddress}
    (horder : c.order = newest capacity l) {address : BlockAddress} (habsent : address ∉ c.blocks)
    (data : ByteArray) :
    (c.insert capacity address data).InStep ∧
      (c.insert capacity address data).order = newest capacity (l ++ [address]) := by
  have hcontains : c.blocks.contains address = false := by simpa using habsent
  have hadded := h.addNewest habsent data
  rw [← newest_append, ← horder]
  rcases capacity with _ | _ | n
  · simp only [BlockCache.insert, hcontains]
    exact ⟨hadded, rfl⟩
  · -- Nothing is kept, so that the newest blocks are none.
    refine ⟨h, ?_⟩
    simp [BlockCache.insert, horder, newest]
  · simp only [BlockCache.insert, hcontains]
    exact hadded.evict (n + 1)

/-! ### Capacity -/

/-- The order is right, and there is room for all blocks in it. -/
def Bounded (capacity : Option Nat) (c : BlockCache) : Prop :=
  c.InStep ∧ newest capacity c.order = c.order

theorem bounded_empty (capacity : Option Nat) : empty.Bounded capacity :=
  ⟨inStep_empty, by cases capacity <;> simp [newest, empty]⟩

theorem Bounded.length_le {n : Nat} (h : c.Bounded (some n)) : c.order.length ≤ n := by
  rw [← h.2, length_newest]
  exact Nat.min_le_left ..

variable {capacity : Option Nat}

/-- A capacity is respected when a block is added. -/
theorem Bounded.insert (h : c.Bounded capacity) {address : BlockAddress}
    (habsent : address ∉ c.blocks) (data : ByteArray) :
    (c.insert capacity address data).Bounded capacity := by
  obtain ⟨hstep, horder⟩ := h.1.insert h.2.symm habsent data
  exact ⟨hstep, by rw [horder, newest_newest]⟩

variable {σ : Type} {reader : BlockReader σ} {address : BlockAddress} {s : σ}

/-- A capacity is respected by readings. -/
theorem Bounded.after_cached (h : c.Bounded capacity) :
    (after ((reader.cached capacity).read address) (s, c)).2.Bounded capacity := by
  rw [Apfs.after_cached]
  cases hkept : c.blocks[address]? with
  | some data => exact h
  | none =>
    have habsent : address ∉ c.blocks := by
      simp [Std.HashMap.mem_iff_isSome_getElem?, hkept]
    cases outcome (reader.read address) s with
    | ok data => exact h.insert habsent data
    | error e => exact h

/-- The block that was read last is kept, if there is room for one at all. -/
theorem Bounded.mem_order_after_cached {n : Nat} (h : c.Bounded (some (n + 1))) {data : ByteArray}
    (hread : outcome (reader.read address) s = .ok data) :
    address ∈ (after ((reader.cached (some (n + 1))).read address) (s, c)).2.order := by
  rw [Apfs.after_cached, hread]
  cases hkept : c.blocks[address]? with
  | some data =>
    refine (h.1.mem_iff address).mp ?_
    rw [Std.HashMap.mem_iff_isSome_getElem?, hkept]
    rfl
  | none =>
    have habsent : address ∉ c.blocks := by
      simp [Std.HashMap.mem_iff_isSome_getElem?, hkept]
    dsimp only
    rw [(h.1.insert h.2.symm habsent data).2]
    exact mem_newest_append n _ address

/-- With room for one block only, that is the block that was read last. -/
theorem Bounded.order_after_cached (h : c.Bounded (some 1)) {data : ByteArray}
    (hread : outcome (reader.read address) s = .ok data) :
    (after ((reader.cached (some 1)).read address) (s, c)).2.order = [address] := by
  have hmem := h.mem_order_after_cached hread
  have hbounded : (after ((reader.cached (some 1)).read address) (s, c)).2.Bounded (some 1) :=
    h.after_cached
  have hle := hbounded.length_le
  have hpos := List.length_pos_of_mem hmem
  obtain ⟨only, honly⟩ := List.length_eq_one_iff.mp (Nat.le_antisymm hle hpos)
  rw [honly] at hmem ⊢
  rw [List.mem_singleton.mp hmem]

end BlockCache

/-- The blocks of a source, with a cache that respects its capacity. -/
def BlockSource.bounded {σ : Type} (B : BlockSource σ) (capacity : Option Nat) :
    BlockSource (σ × BlockCache) where
  reader := B.reader.cached capacity
  Valid p := (B.cached capacity).Valid p ∧ p.2.Bounded capacity
  steady_read address := by
    rintro ⟨s, c⟩ ⟨t, c'⟩ ⟨⟨hs, hc⟩, ⟨ht, hc'⟩⟩
    obtain ⟨hout, hs', ht'⟩ := (B.cached capacity).steady_read address ⟨hs, ht⟩
    exact ⟨hout, ⟨hs', hc.after_cached⟩, ht', hc'.after_cached⟩

/-- Readings with such a cache are those of the source. -/
theorem BlockSource.alike_bounded {σ : Type} (B : BlockSource σ) (capacity : Option Nat) :
    (B.bounded capacity).Alike Eq B := by
  refine fun address => .of_agree ?_
  rintro ⟨s, c⟩ t ⟨⟨hp, hc⟩, ht⟩
  obtain ⟨hout, hp', ht'⟩ := B.agree_cached capacity address ⟨hp, ht⟩
  exact ⟨hout, ⟨hp', hc.after_cached⟩, ht'⟩

end Apfs
