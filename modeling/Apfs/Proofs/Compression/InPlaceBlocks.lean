import Apfs.Proofs.Compression.CodedBlocks
import Apfs.Proofs.Compression.InPlaceSteps

namespace Apfs

/-!
# Decoding blocks in place

Blocks are decoded in place as into an output that grows.  Tables stand for the codes, and an array
that has places for all code lengths for the list of those that are known.

* `refines_storedBlock`, `refines_codedBlock` — the contents of blocks.
* `refines_sent`, `refines_codeLengthLengths` — the lengths of the code length code.
* `Starts`, `refines_codeLengthRun`, `refines_codeLengths` — the code lengths of a dynamic block.
-/

variable {α β γ δ : Type} {data buffer : ByteArray}

/-! ### Bytes -/

/-- Two bytes of a byte string. -/
theorem Bytes.toList_extract_two {data : ByteArray} {i : Nat} (h : i + 2 ≤ data.size) :
    (data.extract i (i + 2)).toList = [Bytes.get data i, Bytes.get data (i + 1)] := by
  have hsize : (data.extract i (i + 2)).size = 2 := by
    rw [ByteArray.size_extract]
    omega
  rw [Bytes.toList_eq_map_get, hsize]
  show [Bytes.get _ 0, Bytes.get _ 1] = _
  rw [Bytes.get_extract _ (by omega), Bytes.get_extract _ (by omega), Nat.add_zero]

/-- The bytes of which there are at most a number. -/
theorem Bytes.extract_min (bytes : ByteArray) (n : Nat) :
    bytes.extract 0 (min bytes.size n) = bytes.extract 0 n := by
  by_cases hle : n ≤ bytes.size
  · rw [Nat.min_eq_right hle]
  · rw [Nat.min_eq_left (by omega), Bytes.extract_of_size_le (Nat.le_refl _),
      Bytes.extract_of_size_le (by omega)]

/-- A copy has as many bytes as are asked for. -/
theorem Bytes.size_copyBack (data : ByteArray) (distance count : Nat) :
    (Bytes.copyBack data distance count).size = data.size + count := by
  induction count generalizing data with
  | zero => rfl
  | succ count ih => rw [Bytes.copyBack, ih, ByteArray.size_push, Nat.add_assoc, Nat.add_comm 1]

/-! ### Reading -/

/-- Readings in sequence are read in sequence. -/
theorem Inflater.reading_bind (y : BitReading β) (g : β → BitReading δ) :
    Inflater.reading (y >>= g) = Inflater.reading y >>= fun b => Inflater.reading (g b) := by
  funext t
  cases hy : y t.input with
  | ok b r => simp only [Inflater.reading, bind, EStateM.bind, hy]
  | error e r => simp only [Inflater.reading, bind, EStateM.bind, hy]

namespace InPlaceInflater

/-! ### Stored blocks -/

theorem refines_storedBlock :
    Refines data buffer 0 Eq storedBlock (Inflater.storedBlock buffer.size) := by
  refine (refines_takeBytes 4).bind ?_
  rintro header _ ⟨rfl, hsize⟩
  have hlength := @Bytes.toList_extract_two header 0 (by omega)
  have hinverse := @Bytes.toList_extract_two header 2 (by omega)
  rw [byteAt_of_lt (by omega), pure_bind, byteAt_of_lt (by omega), pure_bind,
    byteAt_of_lt (by omega), pure_bind, byteAt_of_lt (by omega), pure_bind]
  dsimp only
  rw [hlength, hinverse]
  refine .check fun _ => (refines_takeBytes _).bind ?_
  rintro bytes _ ⟨rfl, -⟩ s t hs
  -- How much is written depends on the room that there is now.
  have hle := hs.size_le
  have hfits : t.output.size + min bytes.size (buffer.size - t.output.size) ≤ buffer.size := by
    omega
  have hwrite := OutputBuffer.append_holding hfits (Nat.min_le_left _ _)
  rw [Bytes.extract_min] at hwrite
  have hsize' : (t.output ++ bytes.extract 0 (buffer.size - t.output.size)).size
      ≤ buffer.size := by
    rw [ByteArray.size_append, ByteArray.size_extract]
    omega
  obtain ⟨s', hs₁, hs', hlater⟩ := hs.exists_writing hwrite hsize'
  rw [bind_of_ok hs.room_eq, bind_of_ok hs₁, bind_of_get]
  refine ⟨_, s', rfl, ?_, hs', hlater⟩
  by_cases hall : bytes.size ≤ buffer.size - t.output.size
  · rw [if_pos hall, if_pos (Nat.min_eq_left hall)]
  · rw [if_neg hall, if_neg (by omega)]

/-! ### Coded blocks -/

/-- A number with extra bits is at least its base. -/
theorem refines_extended {table : List (Nat × Nat)}
    (h : ∀ entry ∈ table, 1 ≤ entry.1 ∧ entry.2 ≤ 32) (index : Nat) (fault : DeflateFault) :
    Refines data buffer 0 (fun a b => a = b ∧ 1 ≤ b) (extended table.toArray index fault)
      (Inflater.reading (Inflater.extended table index fault)) := by
  unfold extended Inflater.extended
  rw [List.size_toArray]
  by_cases hindex : table.length ≤ index
  · rw [if_pos hindex, List.getElem?_eq_none hindex]
    exact .fail _
  · have hlt : index < table.length := Nat.lt_of_not_le hindex
    obtain ⟨hbase, hextra⟩ := h _ (List.getElem_mem hlt)
    rw [if_neg hindex, readAt_of_lt (by rw [List.size_toArray]; exact hlt), pure_bind,
      List.getElem?_eq_getElem hlt, List.getElem_toArray]
    generalize table[index] = entry at hbase hextra
    obtain ⟨base, extra⟩ := entry
    dsimp only at hbase hextra ⊢
    rw [Inflater.reading_bind]
    refine ((refines_bits hextra).weaken (Nat.zero_le _)).bind ?_
    rintro v _ ⟨rfl, -⟩
    exact .pure ⟨rfl, hbase.trans (Nat.le_add_right _ _)⟩

/-- A copy stays inside the buffer, and repeats bytes that are written. -/
theorem refines_copyTo {distance : Nat} (hpos : 1 ≤ distance) (length : Nat) :
    Refines data buffer 0 (SameEnd Eq)
      (do writing (OutputBuffer.copyBack distance length); return .inr ())
      (Deflate.copyTo buffer.size length distance) := by
  intro s t hs
  unfold Deflate.copyTo
  rw [bind_of_get]
  dsimp only
  by_cases hlt : t.output.size < distance
  · rw [if_pos hlt]
    obtain ⟨reader, out, rounds⟩ := s
    obtain rfl := hs.out_eq
    refine ⟨⟨reader, .holding buffer t.output, rounds⟩, bind_of_error ?_ _, hs,
      Nat.le_add_right _ _⟩
    simp only [writing, OutputBuffer.copyBack_holding_of_lt hlt]
  · have hsize : (Bytes.copyBack t.output distance (min length (buffer.size - t.output.size))).size
        ≤ buffer.size := by
      rw [Bytes.size_copyBack]
      have hle := hs.size_le
      omega
    obtain ⟨s', hs₁, hs', hlater⟩ := hs.exists_writing
      (OutputBuffer.copyBack_holding hs.size_le hpos (Nat.le_of_not_lt hlt) length) hsize
    rw [if_neg hlt, bind_of_ok hs₁]
    exact ⟨_, s', rfl, trivial, hs', hlater⟩

theorem refines_copyStep {distances : CodeTable} {code : PrefixCode} (h : distances.IsTableOf code)
    (i : Nat) :
    Refines data buffer 0 (SameEnd Eq)
      (do
        let length ← extended lengthTable i .literalSymbol
        let symbol ← reading distances.decode
        let distance ← extended distanceTable symbol .distanceSymbol
        writing (OutputBuffer.copyBack distance length)
        return .inr ())
      (Deflate.copyStep buffer.size code i) := by
  refine (refines_extended (by decide) i _).bind ?_
  rintro length _ ⟨rfl, -⟩
  refine ((refines_decode h).weaken (Nat.zero_le _)).bind ?_
  rintro symbol _ rfl
  refine (refines_extended (by decide) symbol _).bind ?_
  rintro distance _ ⟨rfl, hpos⟩
  exact refines_copyTo hpos length

/-- Each literal and each copy takes a bit that is that of no other round. -/
theorem refines_codedStep {literals distances : CodeTable} {code code' : PrefixCode}
    (hliterals : literals.IsTableOf code) (hdistances : distances.IsTableOf code') :
    Refines data buffer 1 (SameEnd Eq) (codedStep literals distances)
      (Inflater.codedStep buffer.size code code') := by
  rw [Deflate.codedStep_eq]
  refine (refines_decode hliterals).bind ?_
  rintro symbol _ rfl
  unfold Deflate.tokenRest
  by_cases hend : symbol = Inflater.endOfBlock
  · rw [if_pos hend, if_pos hend]
    exact .pure rfl
  rw [if_neg hend, if_neg hend]
  -- That a byte can be written is known from the room that there was found to be in this state.
  intro s t hs
  have hle := hs.size_le
  rw [bind_of_ok hs.room_eq, bind_of_get]
  by_cases hfull : buffer.size ≤ t.output.size
  · rw [if_pos (by omega), if_pos hfull]
    exact ⟨_, s, rfl, rfl, hs, .refl s⟩
  rw [if_neg (by omega), if_neg hfull]
  by_cases hliteral : symbol < Inflater.endOfBlock
  · rw [if_pos hliteral, if_pos hliteral]
    have hroom : t.output.size < buffer.size := Nat.lt_of_not_le hfull
    have hsize : (t.output.push (UInt8.ofNat symbol)).size ≤ buffer.size := by
      rw [ByteArray.size_push]
      exact hroom
    obtain ⟨s', hs₁, hs', hlater⟩ := hs.exists_writing (OutputBuffer.push_holding hroom _) hsize
    rw [bind_of_ok hs₁]
    exact ⟨_, s', rfl, trivial, hs', hlater⟩
  · have hge : 257 ≤ symbol := Nat.lt_of_le_of_ne (Nat.le_of_not_lt hliteral) (Ne.symm hend)
    rw [if_neg hliteral, if_neg hliteral, minus_of_le hge, pure_bind]
    generalize symbol - 257 = i
    exact refines_copyStep hdistances i hs

theorem refines_codedBlock {literals distances : CodeTable} {code code' : PrefixCode}
    (hliterals : literals.IsTableOf code) (hdistances : distances.IsTableOf code') :
    Refines data buffer 0 Eq (codedBlock literals distances)
      (Inflater.codedBlock buffer.size code code') :=
  refines_loop _ (fun _ => refines_codedStep hliterals hdistances) ()

/-! ### The codes of a dynamic block -/

namespace Refines

variable {k : Nat} {V : α → β → Prop} {W : γ → δ → Prop} {x : InflatingInPlace α}
  {y : BitReading β}

theorem reading_pure {a : α} {b : β} (h : V a b) :
    Refines data buffer 0 V (Pure.pure a) (Inflater.reading (Pure.pure b)) := .pure h

theorem reading_bind {f : α → InflatingInPlace γ} {g : β → BitReading δ}
    (h : Refines data buffer k V x (Inflater.reading y))
    (hf : ∀ a b, V a b → Refines data buffer 0 W (f a) (Inflater.reading (g b))) :
    Refines data buffer k W (x >>= f) (Inflater.reading (y >>= g)) := by
  rw [Inflater.reading_bind]
  exact h.bind hf

theorem reading_check {c : Prop} [Decidable c] {e : Error} {r : δ → BitReading β}
    (h : ¬ c → Refines data buffer k V x (Inflater.reading y)) :
    Refines data buffer k V (if c then Apfs.fail e else x)
      (Inflater.reading (if c then throw e >>= r else y)) := by
  by_cases hc : c
  · rw [if_pos hc, if_pos hc]
    exact .fail e
  · rw [if_neg hc, if_neg hc]
    exact h hc

end Refines

/-- The lengths that are sent are written one after the other, each one to a place of its own. -/
theorem refines_sent {symbols : List Nat} (hnodup : symbols.Nodup)
    (hlt : ∀ symbol ∈ symbols, symbol < 19) (f : Nat → Nat) :
    Refines data buffer 0
      (fun lengths sent => sent.map Prod.fst = symbols ∧
        lengths = tabulate 19 fun symbol => (sent.lookup symbol).getD (f symbol))
      (symbols.foldlM (fun lengths symbol => do writeAt lengths symbol (← bits 3)) (tabulate 19 f))
      (Inflater.reading (symbols.mapM fun symbol => do return (symbol, ← BitReader.take 3))) := by
  induction symbols generalizing f with
  | nil => exact .reading_pure ⟨rfl, rfl⟩
  | cons symbol symbols ih =>
    obtain ⟨hnot, hnodup⟩ := List.nodup_cons.mp hnodup
    obtain ⟨hsymbol, hlt⟩ := List.forall_mem_cons.mp hlt
    rw [List.foldlM_cons, List.mapM_cons, bind_assoc, bind_assoc]
    refine ((refines_bits (by decide)).weaken (Nat.zero_le _)).reading_bind ?_
    rintro v _ ⟨rfl, -⟩
    rw [writeAt_tabulate hsymbol, pure_bind, pure_bind, ← bind_pure (List.foldlM _ _ _)]
    refine (ih hnodup hlt (Function.update f symbol v)).reading_bind ?_
    rintro _ sent ⟨hsent, rfl⟩
    refine .reading_pure ⟨by rw [List.map_cons, hsent], tabulate_congr fun i _ => ?_⟩
    -- The symbols that come later have other places, so that what is written stays.
    by_cases hi : i = symbol
    · have hnone : sent.lookup symbol = none := by
        rw [List.lookup_eq_none_iff]
        intro entry hentry
        rw [bne_iff_ne]
        rintro rfl
        rw [← hsent] at hnot
        exact hnot (List.mem_map_of_mem hentry)
      rw [hi, hnone, List.lookup_cons_self, Function.update_self]
      rfl
    · rw [Function.update_of_ne hi, List.lookup_cons, beq_false_of_ne hi]

theorem refines_codeLengthLengths (count : Nat) :
    Refines data buffer 0 (fun lengths lengths' => lengths.toList = lengths')
      (codeLengthLengths count) (Inflater.reading (Inflater.codeLengthLengths count)) := by
  unfold codeLengthLengths Inflater.codeLengthLengths
  have hnodup : (Inflater.codeLengthOrder.take count).Nodup :=
    List.Nodup.sublist (List.take_sublist _ _) (by decide)
  have hlt : ∀ symbol ∈ Inflater.codeLengthOrder.take count, symbol < 19 := by
    intro symbol hsymbol
    have hall : ∀ symbol ∈ Inflater.codeLengthOrder, symbol < 19 := by decide
    exact hall symbol (List.mem_of_mem_take hsymbol)
  rw [replicate_eq_tabulate, ← bind_pure (List.foldlM _ _ _)]
  refine (refines_sent hnodup hlt fun _ => 0).reading_bind ?_
  rintro _ sent ⟨-, rfl⟩
  refine .reading_pure ?_
  show (tabulate 19 _).toList = _
  rw [toList_tabulate]
  rfl

/-- The lengths that are known stand at the start of the array, which has places for all lengths. -/
structure Starts (known : List Nat) (lengths : Array Nat) : Prop where
  size_eq : lengths.size = 286 + 30
  isPrefix : known <+: lengths.toList

/-- A run is written behind the lengths that are known. -/
theorem Starts.exists_fillAt {m : Type → Type} [Monad m] [LawfulMonad m] [MonadExceptOf Stop m]
    {known : List Nat} {lengths : Array Nat} (h : Starts known lengths) (value : Nat) {count : Nat}
    (hfits : known.length + count ≤ 286 + 30) :
    ∃ lengths', (fillAt lengths known.length value count : m (Array Nat)) = Pure.pure lengths' ∧
      Starts (known ++ List.replicate count value) lengths' := by
  induction count generalizing known lengths with
  | zero => exact ⟨lengths, rfl, by rwa [List.replicate_zero, List.append_nil]⟩
  | succ count ih =>
    have hlt : known.length < lengths.size := by
      rw [h.size_eq]
      omega
    have hset : Starts (known ++ [value]) (lengths.set known.length value hlt) := by
      refine ⟨by rw [Array.size_set, h.size_eq], ?_⟩
      obtain ⟨rest, hrest⟩ := h.isPrefix
      rw [Array.toList_set, ← hrest, List.set_append_right _ _ (Nat.le_refl _), Nat.sub_self]
      cases rest with
      | nil =>
        rw [List.append_nil] at hrest
        rw [hrest] at hlt
        exact absurd hlt (Nat.lt_irrefl _)
      | cons x rest => exact ⟨rest, by rw [List.append_assoc]; rfl⟩
    obtain ⟨lengths', hfill, hstarts⟩ := ih hset (by
      rw [List.length_append, List.length_singleton]
      omega)
    rw [List.length_append, List.length_singleton] at hfill
    rw [List.append_assoc, List.singleton_append, ← List.replicate_succ] at hstarts
    refine ⟨lengths', ?_, hstarts⟩
    rw [fillAt, writeAt_of_lt hlt, pure_bind, hfill]

theorem refines_codeLengthRun {table : CodeTable} {code : PrefixCode} (h : table.IsTableOf code)
    {known : List Nat} {lengths : Array Nat} (hstarts : Starts known lengths) :
    Refines data buffer 1 (fun run run' => run = (run'.1, run'.2 + 1))
      (codeLengthRun table lengths known.length)
      (Inflater.reading (Inflater.codeLengthRun code known)) := by
  -- The number of times is counted from one on the one side, and from zero on the other.
  have hcount (value least : Nat) {n : Nat} (hn : n ≤ 32) :
      Refines data buffer 0 (fun run run' => run = (run'.1, run'.2 + 1))
        (do return (value, least + 1 + (← bits n)))
        (Inflater.reading (do return (value, least + (← BitReader.take n)))) := by
    refine ((refines_bits hn).weaken (Nat.zero_le _)).reading_bind ?_
    rintro v _ ⟨rfl, -⟩
    exact .reading_pure (by rw [Nat.add_right_comm])
  refine (refines_decode h).reading_bind ?_
  rintro symbol _ rfl
  by_cases hplain : symbol ≤ 15
  · rw [if_pos hplain, if_pos hplain]
    exact .reading_pure rfl
  rw [if_neg hplain, if_neg hplain]
  by_cases hrepeat : symbol = 16
  · rw [if_pos hrepeat, if_pos hrepeat]
    cases hlast : known.getLast? with
    | none =>
      rw [List.getLast?_eq_none_iff.mp hlast]
      exact .fail _
    | some previous =>
      obtain ⟨before, rfl⟩ := List.getLast?_eq_some_iff.mp hlast
      have hlen : (before ++ [previous]).length = before.length + 1 := List.length_append
      have hget : lengths[before.length]? = some previous := by
        obtain ⟨rest, hrest⟩ := hstarts.isPrefix
        rw [← Array.getElem?_toList, ← hrest, List.append_assoc,
          List.getElem?_append_right (Nat.le_refl _), Nat.sub_self]
        rfl
      have hread : (readAt lengths before.length : InflatingInPlace Nat) = Pure.pure previous := by
        rw [readAt, hget]
      rw [hlen, if_neg (Nat.succ_ne_zero _), minus_of_le (Nat.le_add_left _ _), pure_bind,
        Nat.add_sub_cancel, hread, pure_bind]
      exact hcount previous 2 (by decide)
  rw [if_neg hrepeat, if_neg hrepeat]
  by_cases hshort : symbol = 17
  · rw [if_pos hshort, if_pos hshort]
    exact hcount 0 2 (by decide)
  rw [if_neg hshort, if_neg hshort]
  by_cases hlong : symbol = 18
  · rw [if_pos hlong, if_pos hlong]
    exact hcount 0 10 (by decide)
  rw [if_neg hlong, if_neg hlong]
  exact .fail _

/-- A run of lengths, behind those that are known. -/
def codeLengthRound (code : PrefixCode) (total : Nat) (known : List Nat) :
    BitReading (List Nat) := do
  let (value, more) ← Inflater.codeLengthRun code known
  if known.length + (more + 1) ≤ total then return known ++ List.replicate (more + 1) value
  else throw (.deflate .codeLengthOverrun)

theorem codeLengths_of_lt {code : PrefixCode} {total : Nat} {known : List Nat}
    (h : known.length < total) :
    Inflater.codeLengths code total known
      = codeLengthRound code total known >>= Inflater.codeLengths code total := by
  rw [Inflater.codeLengths, if_pos h, codeLengthRound, bind_assoc]
  refine bind_congr fun run => ?_
  obtain ⟨value, more⟩ := run
  dsimp only
  by_cases hle : known.length + (more + 1) ≤ total
  · rw [if_pos hle, if_pos hle, pure_bind]
  · rw [if_neg hle, if_neg hle]
    rfl

/-- After a round there is an array that starts with the lengths that are known then. -/
def RoundEnds (total : Nat) (before : List Nat) :
    Array Nat ⊕ (Array Nat × Nat) → List Nat → Prop
  | .inl lengths, known => known.length = total ∧ Starts known lengths
  | .inr (lengths, index), known => before.length < known.length ∧ known.length < total ∧
    index = known.length ∧ Starts known lengths

theorem refines_codeLengthStep {table : CodeTable} {code : PrefixCode} (h : table.IsTableOf code)
    {total : Nat} (htotal : total ≤ 286 + 30) {known : List Nat} {lengths : Array Nat}
    (hstarts : Starts known lengths) :
    Refines data buffer 1 (RoundEnds total known)
      (codeLengthStep table total (lengths, known.length))
      (Inflater.reading (codeLengthRound code total known)) := by
  refine (refines_codeLengthRun h hstarts).reading_bind ?_
  rintro _ ⟨value, more⟩ rfl
  dsimp only
  by_cases hle : known.length + (more + 1) ≤ total
  · obtain ⟨lengths', hfill, hstarts'⟩ :=
      @Starts.exists_fillAt InflatingInPlace _ _ _ _ _ hstarts value (more + 1) (by omega)
    have hlen : (known ++ List.replicate (more + 1) value).length = known.length + (more + 1) := by
      rw [List.length_append, List.length_replicate]
    rw [if_neg (by omega), if_pos hle, hfill, pure_bind]
    refine .reading_pure ?_
    by_cases hlt : known.length + (more + 1) < total
    · rw [if_pos hlt]
      exact ⟨by omega, by omega, hlen.symm, hstarts'⟩
    · rw [if_neg hlt]
      exact ⟨by omega, hstarts'⟩
  · rw [if_pos (by omega), if_neg hle]
    exact .fail _

/-- **The code lengths** are decoded run by run.  By induction on the number of those that are not
    known. -/
theorem refines_codeLengths {table : CodeTable} {code : PrefixCode} (h : table.IsTableOf code)
    {total : Nat} (htotal : total ≤ 286 + 30) {known : List Nat} {lengths : Array Nat}
    (hstarts : Starts known lengths) (hlt : known.length < total) :
    Refines data buffer 0 (fun lengths known => known.length = total ∧ Starts known lengths)
      (repeatRounds (codeLengthStep table total) (lengths, known.length))
      (Inflater.reading (Inflater.codeLengths code total known)) := by
  induction hgap : total - known.length using Nat.strong_induction_on
    generalizing known lengths with
  | h gap ih =>
    rw [codeLengths_of_lt hlt, Inflater.reading_bind]
    refine refines_round (refines_codeLengthStep h htotal hstarts) ?_ ?_
    · rintro lengths' known' ⟨hlen, hstarts'⟩
      rw [Inflater.codeLengths, if_neg (by omega)]
      exact .reading_pure ⟨hlen, hstarts'⟩
    · rintro ⟨lengths', index⟩ known' ⟨hmore, hlt', rfl, hstarts'⟩
      exact ih _ (by omega) hstarts' hlt' rfl

/-- All code lengths of a dynamic block. -/
theorem refines_allCodeLengths {table : CodeTable} {code : PrefixCode} (h : table.IsTableOf code)
    {total : Nat} (hpos : 0 < total) (htotal : total ≤ 286 + 30) :
    Refines data buffer 0 (fun lengths known => known.length = total ∧ Starts known lengths)
      (codeLengths table total) (Inflater.reading (Inflater.codeLengths code total [])) := by
  have hrounds : codeLengths table total
      = repeatRounds (codeLengthStep table total) (Array.replicate (286 + 30) 0, 0) := if_pos hpos
  rw [hrounds]
  exact refines_codeLengths h htotal ⟨Array.size_replicate, List.nil_prefix⟩ hpos

end InPlaceInflater

end Apfs
