import Apfs.Proofs.Block.Cache
import Apfs.Proofs.Block.CacheOrder

namespace Apfs

/-!
# Runs of a cached reader

A reader with a cache is called over and over.  Between any two calls the cache holds the blocks
that were read last, and a call reads a block only if it is not held.

* `BlockCall`, `BlockReturn`, `BlockCall.perform` — calls of a reader, and what they give.
* `BlockReader.recorded` — a reader that writes down its readings, as `BlockReading`s.
* `BlockReader.performAll`, `BlockReader.misses` — many calls, and the blocks that had to be read.
* `CallEffect`, `callEffect_perform` — what one call does.
* `BlockReader.Immutable` — blocks do not change.
* `CacheInvariant` — what holds between calls; `CacheInvariant.perform` and
  `CacheInvariant.performAll` keep it.
* `BlockReader.cached_performAll` — what holds after any calls.
-/

variable {σ : Type}

/-! ### Calls -/

/-- What a block reader may be asked for. -/
inductive BlockCall where
  /-- A block. -/
  | block (address : BlockAddress)
  /-- The bytes of a block. -/
  | data (address : BlockAddress)
  /-- The bytes of a block, in a buffer of the caller. -/
  | into (address : BlockAddress) (buffer : ByteArray)

/-- What a block reader gives. -/
inductive BlockReturn where
  | block (result : Except Error Block)
  | data (result : Except Error ByteArray)
  /-- Whether the block could be read, and what the buffer holds then. -/
  | into (result : Except Error Unit) (buffer : ByteArray)

namespace BlockCall

/-- The block that is asked for. -/
def address : BlockCall → BlockAddress
  | .block address => address
  | .data address => address
  | .into address _ => address

/-- What the reader gives, and the state that it is in then. -/
def perform (reader : BlockReader σ) (call : BlockCall) (s : σ) : BlockReturn × σ :=
  match call with
  | .block address =>
    (.block (outcome (reader.readBlock address) s), after (reader.readBlock address) s)
  | .data address => (.data (outcome (reader.read address) s), after (reader.read address) s)
  | .into address buffer =>
    let (s', buffer') := after (reader.readInto address) (s, buffer)
    (.into (outcome (reader.readInto address) (s, buffer)) buffer', s')

/-- What a call gives if the reading of the block gives `result`. -/
def returned (call : BlockCall) (result : Except Error ByteArray) : BlockReturn :=
  match call, result with
  | .block address, result => .block (result.map (⟨address, ·⟩))
  | .data _, result => .data result
  | .into _ _, .ok contents => .into (.ok ()) contents
  -- The buffer holds what it held before.
  | .into _ buffer, .error e => .into (.error e) buffer

/-- Every call is one reading. -/
theorem perform_eq (reader : BlockReader σ) (call : BlockCall) (s : σ) :
    call.perform reader s = (call.returned (outcome (reader.read call.address) s),
      after (reader.read call.address) s) := by
  cases call with
  | block address =>
    simp only [perform, returned, BlockCall.address, BlockReader.readBlock, outcome_bind,
      after_bind]
    cases outcome (reader.read address) s <;> rfl
  | data address => rfl
  | into address buffer =>
    simp only [perform, returned, BlockCall.address, BlockReader.readInto, outcome_bind, after_bind,
      outcome_onFirst, after_onFirst]
    cases outcome (reader.read address) s <;> rfl

end BlockCall

/-! ### Readings that are written down -/

/-- A reading of a block, and what it gave. -/
structure BlockReading where
  address : BlockAddress
  result : Except Error ByteArray

/-- The block that was delivered, if it was. -/
def BlockReading.delivered? (r : BlockReading) : Option BlockAddress :=
  match r.result with
  | .ok _ => some r.address
  | .error _ => none

namespace BlockReader

variable (reader : BlockReader σ) (capacity : Option Nat)

/-- The reader, with a log of its readings beside its state. -/
def recorded : BlockReader (σ × List BlockReading) where
  blockSize := reader.blockSize
  read address := fun (s, log) =>
    let log := log ++ [⟨address, outcome (reader.read address) s⟩]
    match reader.read address s with
    | .ok data s => .ok data (s, log)
    | .error e s => .error e (s, log)

@[simp] theorem outcome_recorded (address : BlockAddress) (s : σ) (log : List BlockReading) :
    outcome (reader.recorded.read address) (s, log) = outcome (reader.read address) s := by
  simp only [recorded, outcome]
  cases reader.read address s <;> rfl

@[simp] theorem after_recorded (address : BlockAddress) (s : σ) (log : List BlockReading) :
    after (reader.recorded.read address) (s, log)
      = (after (reader.read address) s, log ++ [⟨address, outcome (reader.read address) s⟩]) := by
  simp only [recorded, outcome, after]
  cases reader.read address s <;> rfl

/-! ### Runs -/

/-- What the calls give, one after the other, and the state that the reader is in then. -/
def performAll : (calls : List BlockCall) → (s : σ) → List BlockReturn × σ
  | [], s => ([], s)
  | call :: calls, s =>
    let (given, s) := call.perform reader s
    let (others, s) := performAll calls s
    (given :: others, s)

/-- The block that a call has to read, if it can be read. -/
def missed (call : BlockCall) (s : σ) (c : BlockCache) : List BlockAddress :=
  if call.address ∈ c.blocks then []
  else match outcome (reader.read call.address) s with
    | .ok _ => [call.address]
    | .error _ => []

/-- The blocks that had to be read during the calls and could be read, in order. -/
def misses : (calls : List BlockCall) → (s : σ × BlockCache) → List BlockAddress
  | [], _ => []
  | call :: calls, (s, c) =>
    reader.missed call s c ++ misses calls (call.perform (reader.cached capacity) (s, c)).2

end BlockReader

/-! ### One call -/

/-- **What a call does** to a reader with a cache whose readings are written down. -/
inductive CallEffect (reader : BlockReader σ) (capacity : Option Nat) (call : BlockCall)
    (s : σ) (log : List BlockReading) (c : BlockCache) :
    BlockReturn × (σ × List BlockReading) × BlockCache → Prop where
  /-- The block is kept: nothing is read, and nothing changes. -/
  | hit {data : ByteArray} (hkept : c.blocks[call.address]? = some data) :
    CallEffect reader capacity call s log c (call.returned (.ok data), (s, log), c)
  /-- The block is not kept and cannot be read, which is tried once; the cache does not change. -/
  | failure {e : Error} (hkept : c.blocks[call.address]? = none)
    (hread : outcome (reader.read call.address) s = .error e) :
    CallEffect reader capacity call s log c (call.returned (.error e),
      (after (reader.read call.address) s, log ++ [⟨call.address, .error e⟩]), c)
  /-- The block is not kept, and is read once. -/
  | miss {data : ByteArray} (hkept : c.blocks[call.address]? = none)
    (hread : outcome (reader.read call.address) s = .ok data) :
    CallEffect reader capacity call s log c (call.returned (.ok data),
      (after (reader.read call.address) s, log ++ [⟨call.address, .ok data⟩]),
      c.insert capacity call.address data)

/-- Every call does one of the three. -/
theorem callEffect_perform (reader : BlockReader σ) (capacity : Option Nat) (call : BlockCall)
    (s : σ) (log : List BlockReading) (c : BlockCache) :
    CallEffect reader capacity call s log c
      (call.perform (reader.recorded.cached capacity) ((s, log), c)) := by
  rw [BlockCall.perform_eq]
  cases hkept : c.blocks[call.address]? with
  | some data =>
    rw [outcome, after, BlockReader.cached_of_some hkept]
    exact .hit hkept
  | none =>
    obtain ⟨hout, hafter⟩ :=
      BlockReader.cached_of_none reader.recorded capacity (s := (s, log)) hkept
    rw [hout, hafter, reader.outcome_recorded, reader.after_recorded]
    cases hread : outcome (reader.read call.address) s with
    | ok data => exact .miss hkept hread
    | error e => exact .failure hkept hread

/-- Writing down the readings does not change what a call does otherwise. -/
theorem perform_cached_eq (reader : BlockReader σ) (capacity : Option Nat) (call : BlockCall)
    (s : σ) (log : List BlockReading) (c : BlockCache) :
    call.perform (reader.cached capacity) (s, c) =
      match call.perform (reader.recorded.cached capacity) ((s, log), c) with
      | (given, (s, _), c) => (given, s, c) := by
  rw [BlockCall.perform_eq, BlockCall.perform_eq]
  cases hkept : c.blocks[call.address]? with
  | some data =>
    simp only [outcome, after, BlockReader.cached_of_some hkept]
  | none =>
    obtain ⟨hout, hafter⟩ := BlockReader.cached_of_none reader capacity (s := s) hkept
    obtain ⟨hout', hafter'⟩ :=
      BlockReader.cached_of_none reader.recorded capacity (s := (s, log)) hkept
    simp only [hout, hafter, hout', hafter', reader.outcome_recorded, reader.after_recorded]

/-! ### Blocks that do not change -/

namespace BlockReader

variable (reader : BlockReader σ) (Valid : σ → Prop)

/-- The block at the address is `data`: it was or can be read, and nothing else can be. -/
structure Holds (address : BlockAddress) (data : ByteArray) : Prop where
  readable : ∃ s, Valid s ∧ outcome (reader.read address) s = .ok data
  unique : ∀ s, Valid s → ∀ other, outcome (reader.read address) s = .ok other → other = data

/-- Blocks do not change: what can be read once is all that can be read ever.  A reading may fail
    all the same, now or later. -/
structure Immutable : Prop where
  valid_after : ∀ address s, Valid s → Valid (after (reader.read address) s)
  holds : ∀ address s, Valid s → ∀ data, outcome (reader.read address) s = .ok data →
    reader.Holds Valid address data

end BlockReader

/-- The blocks of a source do not change. -/
theorem BlockSource.immutable (B : BlockSource σ) : B.reader.Immutable B.Valid := by
  refine ⟨fun address s hs => (B.steady_read address).valid_after hs,
    fun address s hs data hread => ⟨⟨s, hs, hread⟩, fun t ht other hother => ?_⟩⟩
  rw [(B.steady_read address).outcome_eq ht hs, hread] at hother
  exact (Except.ok.inj hother).symm

/-! ### What holds between calls -/

/-- What holds between the calls of a reader with a cache that starts empty, after the blocks
    `misses` had to be read. -/
structure CacheInvariant (reader : BlockReader σ) (Valid : σ → Prop) (capacity : Option Nat)
    (s : σ) (log : List BlockReading) (c : BlockCache) (misses : List BlockAddress) : Prop where
  valid : Valid s
  /-- The order lists the kept blocks, without duplicates. -/
  inStep : c.InStep
  /-- The blocks that were read last are kept. -/
  order_eq : c.order = newest capacity misses
  /-- Kept blocks are what the reader gives. -/
  holds : ∀ address data, c.blocks[address]? = some data → reader.Holds Valid address data
  /-- The readings that succeeded are those of the blocks that had to be read. -/
  delivered_eq : log.filterMap BlockReading.delivered? = misses

variable {reader : BlockReader σ} {Valid : σ → Prop} {capacity : Option Nat} {s : σ}
  {log : List BlockReading} {c : BlockCache} {misses : List BlockAddress}

/-- **A call keeps the invariant**, with the block that it had to read behind the others. -/
theorem CacheInvariant.perform (h : CacheInvariant reader Valid capacity s log c misses)
    (hreader : reader.Immutable Valid) (call : BlockCall) :
    match call.perform (reader.recorded.cached capacity) ((s, log), c) with
    | (_, (s', log'), c') =>
      CacheInvariant reader Valid capacity s' log' c' (misses ++ reader.missed call s c) := by
  obtain ⟨hvalid, hstep, horder, hholds, hdelivered⟩ := h
  have heffect := callEffect_perform reader capacity call s log c
  generalize call.perform (reader.recorded.cached capacity) ((s, log), c) = result at heffect
  cases heffect with
  | hit hkept =>
    have hmissed : reader.missed call s c = [] := by
      simp [BlockReader.missed, Std.HashMap.mem_iff_isSome_getElem?, hkept]
    rw [hmissed, List.append_nil]
    exact ⟨hvalid, hstep, horder, hholds, hdelivered⟩
  | failure hkept hread =>
    have hmissed : reader.missed call s c = [] := by simp [BlockReader.missed, hread]
    rw [hmissed, List.append_nil]
    refine ⟨hreader.valid_after _ _ hvalid, hstep, horder, hholds, ?_⟩
    simp [hdelivered, BlockReading.delivered?]
  | miss hkept hread =>
    have habsent : call.address ∉ c.blocks := by
      simp [Std.HashMap.mem_iff_isSome_getElem?, hkept]
    have hmissed : reader.missed call s c = [call.address] := by
      simp [BlockReader.missed, habsent, hread]
    rw [hmissed]
    -- The block was not kept, so it is not in the order yet.
    obtain ⟨hstep', horder'⟩ := hstep.insert horder habsent _
    refine ⟨hreader.valid_after _ _ hvalid, hstep', horder', fun address data hget => ?_, ?_⟩
    · -- A kept block was kept before, or is the one that was just read.
      rcases c.insert_sound capacity _ _ hget with ⟨rfl, rfl⟩ | hget
      · exact hreader.holds _ _ hvalid _ hread
      · exact hholds address data hget
    · simp [hdelivered, BlockReading.delivered?]

/-- **Calls keep the invariant**, with the blocks that they had to read behind the others. -/
theorem CacheInvariant.performAll (h : CacheInvariant reader Valid capacity s log c misses)
    (hreader : reader.Immutable Valid) (calls : List BlockCall) :
    match (reader.recorded.cached capacity).performAll calls ((s, log), c) with
    | (_, (s', log'), c') => CacheInvariant reader Valid capacity s' log' c'
        (misses ++ reader.misses capacity calls (s, c)) := by
  -- On the calls; the blocks that were read so far go along.
  induction calls generalizing s log c misses with
  | nil => simpa [BlockReader.performAll, BlockReader.misses] using h
  | cons call calls ih =>
    have hnext := h.perform hreader call
    simp only [BlockReader.performAll, BlockReader.misses,
      perform_cached_eq reader capacity call s log c, ← List.append_assoc]
    exact ih hnext

/-- Writing down the readings does not change what calls do otherwise. -/
theorem performAll_cached_eq (reader : BlockReader σ) (capacity : Option Nat)
    (calls : List BlockCall) (s : σ) (log : List BlockReading) (c : BlockCache) :
    (reader.cached capacity).performAll calls (s, c) =
      match (reader.recorded.cached capacity).performAll calls ((s, log), c) with
      | (given, (s, _), c) => (given, s, c) := by
  induction calls generalizing s log c with
  | nil => rfl
  | cons call calls ih =>
    simp only [BlockReader.performAll, perform_cached_eq reader capacity call s log c]
    rw [ih]

/-- **A reader with a cache** over blocks that do not change, called any number of times, keeps the
    blocks that it read last: all of them, or as many as its capacity allows.  The next call finds
    its block and reads nothing, or tries to read it once.  Without a capacity no block is read
    twice. -/
theorem BlockReader.cached_performAll (hreader : reader.Immutable Valid) (capacity : Option Nat)
    (calls : List BlockCall) (hs : Valid s) :
    match (reader.recorded.cached capacity).performAll calls ((s, []), .empty) with
    | (given, (s', log), c) =>
      let misses := reader.misses capacity calls (s, .empty)
      (reader.cached capacity).performAll calls (s, .empty) = (given, s', c) ∧
        CacheInvariant reader Valid capacity s' log c misses ∧
        (∀ n, capacity = some n → c.size = min n misses.length) ∧
        (capacity = none → (log.filterMap BlockReading.delivered?).Nodup) ∧
        ∀ call, CallEffect reader capacity call s' log c
          (call.perform (reader.recorded.cached capacity) ((s', log), c)) := by
  have hplain := performAll_cached_eq reader capacity calls s [] .empty
  have hempty : CacheInvariant reader Valid capacity s [] .empty [] :=
    ⟨hs, BlockCache.inStep_empty, by cases capacity <;> simp [newest, BlockCache.empty],
      by simp [BlockCache.empty], rfl⟩
  have hrun := hempty.performAll hreader calls
  generalize (reader.recorded.cached capacity).performAll calls ((s, []), .empty) = result
    at hplain hrun
  obtain ⟨given, ⟨s', log⟩, c⟩ := result
  simp only [List.nil_append] at hrun
  refine ⟨hplain, hrun, ?_, ?_, fun call => callEffect_perform reader capacity call s' log c⟩
  · rintro n rfl
    rw [hrun.inStep.size_eq, hrun.order_eq, length_newest]
  · -- What was read is what is kept.
    rintro rfl
    have horder : c.order = reader.misses none calls (s, .empty) := hrun.order_eq
    rw [hrun.delivered_eq, ← horder]
    exact hrun.inStep.nodup

/-- Two blocks, room for one of them, and calls for both, for one that does not exist, and for the
    one that had to go. -/
theorem BlockReader.cached_performAll_roomForOne :
    let reader := (Device.mk ⟨#[1, 2, 3, 4]⟩ 0 2 2).reader
    let calls : List BlockCall := [.block ⟨0⟩, .data ⟨1⟩, .into ⟨1⟩ .empty, .data ⟨2⟩, .block ⟨0⟩]
    reader.Immutable (fun _ => True) ∧
      match (reader.recorded.cached (some 1)).performAll calls (((), []), .empty) with
      | (_, (_, log), c) =>
        c.order = [⟨0⟩] ∧ c.size = 1 ∧
          log.filterMap BlockReading.delivered? = [⟨0⟩, ⟨1⟩, ⟨0⟩] := by
  intro reader calls
  have himm : reader.Immutable (fun _ => True) :=
    (Device.source (Device.mk ⟨#[1, 2, 3, 4]⟩ 0 2 2)).immutable
  have hfirst : outcome (reader.read ⟨0⟩) () = .ok ⟨#[1, 2]⟩ := rfl
  have hsecond : outcome (reader.read ⟨1⟩) () = .ok ⟨#[3, 4]⟩ := rfl
  have hthird : outcome (reader.read ⟨2⟩) () = .error (.blockOutOfBounds ⟨2⟩) := rfl
  -- The second call for block 1 finds it, and the last call does not find block 0 any more.
  have hmisses : reader.misses (some 1) calls ((), .empty) = [⟨0⟩, ⟨1⟩, ⟨0⟩] := by
    simp [calls, BlockReader.misses, BlockReader.missed, BlockCall.perform_eq, BlockCall.address,
      after_cached, hfirst, hsecond, hthird, BlockCache.insert, BlockCache.evict, BlockCache.empty,
      Std.HashMap.size_insert, Std.HashMap.size_erase]
  clear_value reader calls
  have hrun := BlockReader.cached_performAll himm (some 1) calls (s := ()) trivial
  generalize (reader.recorded.cached (some 1)).performAll calls (((), []), .empty) = result
    at hrun
  obtain ⟨given, ⟨⟨⟩, log⟩, c⟩ := result
  rw [hmisses] at hrun
  obtain ⟨-, hinv, hsize, -⟩ := hrun
  exact ⟨himm, hinv.order_eq, hsize 1 rfl, hinv.delivered_eq⟩

end Apfs
