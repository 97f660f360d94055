import Apfs.Proofs.Tree.WrittenTree

namespace Apfs

/-!
# Searching and scanning

A search follows a single path from the root to a leaf, and a walk visits everything.  If index
keys are those of the first entries below them, the search answers what a linear scan of the
visited entries answers.

* `SearchMode.scan` — the entry of a list that answers a search.
* `KeyOrder.Sorted` — less for some entries, then equal for at most one, then greater.
* `outcome_searchFrom` — below any visited node, a search gives what a scan gives.
* `search_eq_scan` — the same for a whole tree, in both modes of searching.
-/

variable {σ : Type} {order : KeyOrder} {mode : SearchMode}

/-! ### Scanning a list of entries -/

/-- Whether the key of an entry compares as given. -/
def KeyOrder.answers (order : KeyOrder) (o : Ordering) (e : Entry) : Bool :=
  match order e.key with
  | .ok o' => o' == o
  | .error _ => false

theorem answers_iff {o : Ordering} {e : Entry} : order.answers o e = true ↔ order e.key = .ok o := by
  unfold KeyOrder.answers
  cases order e.key <;> simp

/-- The entry that answers a search in a list: the one that compares equal, or the last one that
    does not compare greater. -/
def SearchMode.scan (mode : SearchMode) (order : KeyOrder) (entries : List Entry) :
    Option Entry :=
  match mode with
  | .exact => entries.find? (order.answers .eq)
  | .lessOrEqual => (entries.filter fun e => !order.answers .gt e).getLast?

/-- Where all entries compare greater, nothing answers. -/
theorem scan_eq_none {entries : List Entry} (h : ∀ e ∈ entries, order e.key = .ok .gt) :
    mode.scan order entries = none := by
  cases mode with
  | exact =>
    rw [SearchMode.scan, List.find?_eq_none]
    intro e he
    rw [answers_iff, h e he]
    simp
  | lessOrEqual =>
    rw [SearchMode.scan, List.getLast?_eq_none_iff, List.filter_eq_nil_iff]
    intro e he
    rw [answers_iff.mpr (h e he)]
    simp

/-- Entries before the answer that compare less do not matter, nor do those after it that compare
    greater. -/
theorem scan_append {before part rest : List Entry} {e : Entry}
    (hbefore : ∀ e ∈ before, order e.key = .ok .lt) (he : e ∈ part)
    (hpart : order e.key ≠ .ok .gt) (hrest : ∀ e ∈ rest, order e.key = .ok .gt) :
    mode.scan order (before ++ (part ++ rest)) = mode.scan order part := by
  cases mode with
  | exact =>
    have hb : before.find? (order.answers .eq) = none := by
      rw [List.find?_eq_none]
      intro e he
      rw [answers_iff, hbefore e he]
      simp
    have hr : rest.find? (order.answers .eq) = none := by
      show SearchMode.exact.scan order rest = none
      exact scan_eq_none hrest
    rw [SearchMode.scan, List.find?_append, List.find?_append, hb, hr, Option.none_or,
      Option.or_none]
    rfl
  | lessOrEqual =>
    have hr : rest.filter (fun e => !order.answers .gt e) = [] := by
      rw [List.filter_eq_nil_iff]
      intro e he
      rw [answers_iff.mpr (hrest e he)]
      simp
    have hne : part.filter (fun e => !order.answers .gt e) ≠ [] := by
      refine List.ne_nil_of_mem (List.mem_filter.mpr ⟨he, ?_⟩)
      rw [Bool.not_eq_true', Bool.eq_false_iff, ne_eq, answers_iff]
      exact hpart
    rw [SearchMode.scan, List.filter_append, List.filter_append, hr, List.append_nil,
      List.getLast?_append_of_ne_nil _ hne]
    rfl

theorem scan_singleton {e : Entry} {o : Ordering} (h : order e.key = .ok o) (ho : o ≠ .gt) :
    mode.scan order [e] = if mode.accepts o then some e else none := by
  have hgt : order.answers .gt e = false := by
    rw [Bool.eq_false_iff, ne_eq, answers_iff, h]
    simpa using ho
  cases mode with
  | exact =>
    rw [SearchMode.scan, List.find?_singleton, KeyOrder.answers, h]
    rfl
  | lessOrEqual =>
    simp [SearchMode.scan, hgt, SearchMode.accepts]

/-- If there is no last entry that does not compare greater, all compare greater. -/
theorem answers_gt_of_scan_eq_none {entries : List Entry}
    (h : SearchMode.lessOrEqual.scan order entries = none) :
    ∀ e ∈ entries, order.answers .gt e = true := by
  rw [SearchMode.scan, List.getLast?_eq_none_iff, List.filter_eq_nil_iff] at h
  intro e he
  simpa using h e he

/-- The last entry that does not compare greater is followed by entries that all do. -/
theorem exists_of_scan_eq_some {entries : List Entry} {e : Entry}
    (h : SearchMode.lessOrEqual.scan order entries = some e) :
    ∃ before rest, entries = before ++ e :: rest ∧ order.answers .gt e = false ∧
      ∀ e ∈ rest, order.answers .gt e = true := by
  rw [SearchMode.scan, List.getLast?_eq_some_iff] at h
  obtain ⟨before, h⟩ := h
  obtain ⟨l₁, l₂, rfl, -, h⟩ := List.filter_eq_append_iff.mp h
  obtain ⟨l₂, l₃, rfl, -, he, hrest⟩ := List.filter_eq_cons_iff.mp h
  refine ⟨l₁ ++ l₂, l₃, (List.append_assoc ..).symm, ?_, fun e he => ?_⟩
  · simpa using he
  · simpa using List.filter_eq_nil_iff.mp hrest e he

/-! ### Sorted comparisons -/

/-- Along the entries, some compare less, then at most one compares equal, and then some compare
    greater. -/
def KeyOrder.Sorted (order : KeyOrder) (entries : List Entry) : Prop :=
  ∃ less equal greater, equal ≤ 1 ∧ entries.map (fun e => order e.key)
    = List.replicate less (.ok .lt) ++
      (List.replicate equal (.ok .eq) ++ List.replicate greater (.ok .gt))

/-- Of two entries, the first one compares less or the second one greater. -/
def Apart (order : KeyOrder) (e e' : Entry) : Prop :=
  order e.key = .ok .lt ∨ order e'.key = .ok .gt

/-- All entries can be compared, and of any two the first compares less or the second greater. -/
structure KeyOrder.Monotone (order : KeyOrder) (entries : List Entry) : Prop where
  compares : ∀ e ∈ entries, ∃ o, order e.key = .ok o
  apart : entries.Pairwise (Apart order)

/-- Sorted comparisons are monotone. -/
theorem KeyOrder.Sorted.monotone {entries : List Entry} (h : order.Sorted entries) :
    order.Monotone entries := by
  obtain ⟨less, equal, greater, hequal, hmap⟩ := h
  constructor
  · intro e he
    have hmem : order e.key ∈ entries.map fun e => order e.key :=
      List.mem_map_of_mem (f := fun e => order e.key) he
    rw [hmap] at hmem
    simp only [List.mem_append, List.mem_replicate] at hmem
    rcases hmem with ⟨-, h⟩ | ⟨-, h⟩ | ⟨-, h⟩
    all_goals exact ⟨_, h⟩
  · have hpair : (entries.map fun e => order e.key).Pairwise
        fun x y => x = .ok .lt ∨ y = .ok .gt := by
      rw [hmap]
      simp only [List.pairwise_append, List.pairwise_replicate, List.mem_append,
        List.mem_replicate]
      refine ⟨.inr (.inl trivial), ⟨.inl hequal, .inr (.inr trivial), ?_⟩, ?_⟩
      · rintro x - y ⟨-, rfl⟩
        exact .inr rfl
      · rintro x ⟨-, rfl⟩ y -
        exact .inl rfl
    rw [List.pairwise_map] at hpair
    exact hpair

/-- A part of monotone comparisons is monotone. -/
theorem KeyOrder.Monotone.of_mem_flatten {parts : List (List Entry)} {part : List Entry}
    (h : order.Monotone parts.flatten) (hpart : part ∈ parts) : order.Monotone part where
  compares _ he := h.compares _ (List.mem_flatten_of_mem hpart he)
  apart := (List.pairwise_flatten.mp h.apart).1 part hpart

/-- Of two different entries along monotone comparisons, only one can compare equal. -/
theorem KeyOrder.Monotone.eq_of_eq {entries : List Entry} (h : order.Monotone entries)
    {e e' : Entry} (he : e ∈ entries) (he' : e' ∈ entries) (heq : order e.key = .ok .eq)
    (heq' : order e'.key = .ok .eq) : e = e' := by
  by_contra hne
  have hpair : entries.Pairwise fun e e' => ¬(order e.key = .ok .eq ∧ order e'.key = .ok .eq) := by
    refine h.apart.imp ?_
    rintro a b (hlt | hgt) ⟨ha, hb⟩
    · simp [ha] at hlt
    · simp [hb] at hgt
  have : Std.Symm fun e e' : Entry => ¬(order e.key = .ok .eq ∧ order e'.key = .ok .eq) :=
    ⟨fun a b hab hba => hab hba.symm⟩
  exact hpair.forall he he' hne ⟨heq, heq'⟩

/-- Along monotone comparisons, a search for a key finds any entry that compares equal. -/
theorem scan_exact_eq_some {entries : List Entry} (h : order.Monotone entries) {e : Entry}
    (he : e ∈ entries) (heq : order e.key = .ok .eq) :
    SearchMode.exact.scan order entries = some e := by
  have hsome : (SearchMode.exact.scan order entries).isSome :=
    List.find?_isSome.mpr ⟨e, he, answers_iff.mpr heq⟩
  obtain ⟨e', hscan⟩ := Option.isSome_iff_exists.mp hsome
  have heq' : order e'.key = .ok .eq := answers_iff.mp (List.find?_some hscan)
  rw [hscan, h.eq_of_eq (List.mem_of_find?_eq_some hscan) he heq' heq]

/-- Where no entry compares equal, a search for a key finds nothing. -/
theorem scan_exact_eq_none {entries : List Entry} (h : ∀ e ∈ entries, order e.key ≠ .ok .eq) :
    SearchMode.exact.scan order entries = none := by
  rw [SearchMode.scan, List.find?_eq_none]
  intro e he
  rw [answers_iff]
  exact h e he

/-- If one of two keys is before the other, it is before any target or the other one is after the
    target. -/
theorem lt_or_gt_of_cmp_eq_lt {α : Type} {cmp : α → α → Ordering} [Std.TransCmp cmp] {a b : α}
    (h : cmp a b = .lt) (target : α) : cmp a target = .lt ∨ cmp b target = .gt := by
  by_cases hgt : cmp b target = .gt
  · exact .inr hgt
  · have hle : (cmp b target).isLE := Ordering.isLE_iff_ne_gt.mpr hgt
    exact .inl (Std.TransCmp.lt_of_lt_of_isLE h hle)

/-- Monotone comparisons, listed. -/
theorem exists_orders {entries : List Entry} (h : ∀ e ∈ entries, ∃ o, order e.key = .ok o) :
    ∃ orders : List Ordering, entries.map (fun e => order e.key) = orders.map .ok := by
  induction entries with
  | nil => exact ⟨[], rfl⟩
  | cons e rest ih =>
    obtain ⟨o, ho⟩ := h e List.mem_cons_self
    obtain ⟨orders, horders⟩ := ih fun e' he' => h e' (List.mem_cons_of_mem _ he')
    refine ⟨o :: orders, ?_⟩
    rw [List.map_cons, List.map_cons, ho, horders]

/-- A listed comparison is that of the entry at its place. -/
theorem order_of_getElem? {entries : List Entry} {orders : List Ordering}
    (h : entries.map (fun e => order e.key) = orders.map .ok) {i : Nat} {e : Entry}
    (he : entries[i]? = some e) : ∃ o, orders[i]? = some o ∧ order e.key = .ok o := by
  have hmap : entries[i]?.map (fun e => order e.key) = orders[i]?.map .ok := by
    simpa using congrArg (·[i]?) h
  rw [he] at hmap
  cases ho : orders[i]? with
  | none =>
    rw [ho] at hmap
    cases hmap
  | some o =>
    rw [ho] at hmap
    exact ⟨o, rfl, Option.some.inj hmap⟩

/-! ### Below a well-indexed node -/

section WellIndexed

variable {κ : Type} {S : Storage σ} {t : Tree} {key : ByteArray → κ}

/-- Below a visited node that is not empty there are entries. -/
theorem ne_nil_of_spans (hw : S.WellIndexed t key) {depth : Nat} {node : Node}
    {part : List Entry} (hvisits : S.Visits t depth node) (hsize : 0 < node.size)
    (hspans : S.Spans t depth node part) : part ≠ [] := by
  induction depth generalizing node part with
  | zero => exact hspans.elim
  | succ depth ih =>
    obtain ⟨entries, parts, hentries, rfl, hparts⟩ := (S.spans_succ t).mp hspans
    have hlen := hentries.1
    cases hparts with
    | nil =>
      rw [List.length_nil] at hlen
      omega
    | @cons entry first entries parts hholds hrest =>
      -- The first entry of the node already holds something.
      have hentry : node.entry 0 t.info = .ok entry := hentries.2 0 entry rfl
      have hfirst : first ≠ [] := by
        by_cases hleaf : node.header.isLeaf
        · rw [Storage.Holds, if_pos hleaf] at hholds
          rw [hholds]
          exact List.cons_ne_nil _ _
        · rw [Storage.Holds, if_neg hleaf] at hholds
          obtain ⟨child, hchild, hspans'⟩ := hholds
          rw [Bool.not_eq_true] at hleaf
          exact ih (.child hvisits hleaf hentry hchild)
            (hw.nonempty hvisits hleaf hentry hchild) hspans'
      rw [List.flatten_cons]
      exact List.append_ne_nil_of_left_ne_nil hfirst _

/-- Each entry of a visited node has the key of the first entry that it holds. -/
theorem exists_first_of_holds (hw : S.WellIndexed t key) {depth index : Nat} {node : Node}
    {entry : Entry} {part : List Entry} (hvisits : S.Visits t (depth + 1) node)
    (hentry : node.entry index t.info = .ok entry) (hholds : S.Holds t depth node entry part) :
    ∃ first rest, part = first :: rest ∧ key entry.key = key first.key := by
  by_cases hleaf : node.header.isLeaf
  · rw [Storage.Holds, if_pos hleaf] at hholds
    exact ⟨entry, [], hholds, rfl⟩
  · rw [Storage.Holds, if_neg hleaf] at hholds
    obtain ⟨child, hchild, hspans⟩ := hholds
    rw [Bool.not_eq_true] at hleaf
    have hne : part ≠ [] :=
      ne_nil_of_spans hw (.child hvisits hleaf hentry hchild)
        (hw.nonempty hvisits hleaf hentry hchild) hspans
    obtain ⟨first, rest, rfl⟩ := List.exists_cons_of_ne_nil hne
    have hchild' := hchild
    obtain ⟨s, hs, -⟩ := hchild'
    obtain ⟨s', -, hentries⟩ := entriesFrom_of_spans hs hspans
    exact ⟨first, rest, rfl, hw.first_key hvisits hleaf hentry hchild hs hentries first rfl⟩

end WellIndexed

/-! ### The floor of a node points to the answer -/

/-- An entry compares like the first of those that it holds, and it does hold some. -/
def KeyOrder.LikeFirst (order : KeyOrder) (e : Entry) (part : List Entry) : Prop :=
  ∃ first rest, part = first :: rest ∧ order e.key = order first.key

/-- **Where a scan finds nothing.**  When each entry of a node compares like the first entry that
    it holds, and the first entry of the node compares greater, so does everything below. -/
theorem scan_flatten_eq_none {entries : List Entry} {parts : List (List Entry)}
    (hfirst : List.Forall₂ order.LikeFirst entries parts)
    (hmono : order.Monotone parts.flatten) (hgt : ∀ e ∈ entries.head?, order e.key = .ok .gt) :
    mode.scan order parts.flatten = none := by
  apply scan_eq_none
  cases hfirst with
  | nil => simp
  | cons he _ =>
    obtain ⟨first, rest, rfl, heq⟩ := he
    have hfirst : order first.key = .ok .gt := heq ▸ hgt _ rfl
    have hapart := hmono.apart
    rw [List.flatten_cons, List.cons_append] at hapart ⊢
    rintro e (_ | ⟨_, he⟩)
    · exact hfirst
    · rcases List.rel_of_pairwise_cons hapart he with h | h
      · rw [hfirst] at h
        cases h
      · exact h

/-- **Where a scan finds its answer.**  When each entry of a node compares like the first entry
    that it holds, the answer of a scan of everything below is that of a scan below the floor. -/
theorem scan_flatten {entries : List Entry} {parts₁ parts₂ : List (List Entry)}
    {entry : Entry} {part : List Entry} {o : Ordering} (hentry : order entry.key = .ok o)
    (ho : o ≠ .gt) (hnext : o = .lt → ∀ e ∈ entries.head?, order e.key = .ok .gt)
    (hfirst : order.LikeFirst entry part) (hrest : List.Forall₂ order.LikeFirst entries parts₂)
    (hmono : order.Monotone (parts₁ ++ part :: parts₂).flatten) :
    mode.scan order (parts₁ ++ part :: parts₂).flatten = mode.scan order part := by
  obtain ⟨first, rest, rfl, heq⟩ := hfirst
  have hfirst : order first.key = .ok o := heq ▸ hentry
  have hapart := hmono.apart
  rw [List.flatten_append, List.flatten_cons] at hapart ⊢
  rw [List.pairwise_append] at hapart
  obtain ⟨-, hafter, hbefore⟩ := hapart
  refine scan_append (e := first) ?_ List.mem_cons_self ?_ ?_
  · -- The first entry of the part is not greater, so everything before it is less.
    intro e he
    rcases hbefore e he first (List.mem_append_left _ List.mem_cons_self) with h | h
    · exact h
    · rw [hfirst] at h
      cases h
      exact absurd rfl ho
  · rw [hfirst]
    intro h
    cases h
    exact ho rfl
  · -- If the first entry compares equal, all others are greater; if it compares less, the next
    -- entry of the node is greater, and so is the first entry that it holds.
    intro e he
    cases o with
    | gt => exact absurd rfl ho
    | eq =>
      rw [List.cons_append] at hafter
      rcases List.rel_of_pairwise_cons hafter (List.mem_append_right _ he) with h | h
      · rw [hfirst] at h
        cases h
      · exact h
    | lt =>
      have hnone := hnext rfl
      cases hrest with
      | nil => cases he
      | cons hhead htail =>
        obtain ⟨next, others, rfl, heq'⟩ := hhead
        have hgt : order next.key = .ok .gt := heq' ▸ hnone _ rfl
        rw [List.flatten_cons] at he hafter
        have hpair := (List.pairwise_append.mp hafter).2.1
        rw [List.cons_append] at he hpair
        rcases List.mem_cons.mp he with rfl | he
        · exact hgt
        · rcases List.rel_of_pairwise_cons hpair he with h | h
          · rw [hgt] at h
            cases h
          · exact h

/-- **The floor of a node** is where a scan of everything below finds its answer. -/
theorem scan_of_isFloor (mode : SearchMode) {entries : List Entry} {parts : List (List Entry)}
    {orders : List Ordering} {i : Nat} {o : Ordering}
    (horders : entries.map (fun e => order e.key) = orders.map .ok)
    (hfirst : List.Forall₂ order.LikeFirst entries parts) (hmono : order.Monotone parts.flatten)
    (hfloor : IsFloor orders (some (i, o))) :
    ∃ entry part, entries[i]? = some entry ∧ parts[i]? = some part ∧ order entry.key = .ok o ∧
      mode.scan order parts.flatten = mode.scan order part := by
  obtain ⟨hget, ho, hnext⟩ := hfloor
  have hlen : i < entries.length := by
    have hlength := congrArg List.length horders
    rw [List.length_map, List.length_map] at hlength
    rw [hlength]
    exact (List.getElem?_eq_some_iff.mp hget).1
  have hlen' : i < parts.length := hfirst.length_eq ▸ hlen
  have hi : entries[i]? = some entries[i] := List.getElem?_eq_getElem hlen
  have horder : order entries[i].key = .ok o := by
    obtain ⟨o', hget', ho'⟩ := order_of_getElem? horders hi
    rw [hget] at hget'
    cases hget'
    exact ho'
  refine ⟨entries[i], parts[i], hi, List.getElem?_eq_getElem hlen', horder, ?_⟩
  have hsplit : parts = parts.take i ++ parts[i] :: parts.drop (i + 1) := by
    rw [← List.drop_eq_getElem_cons hlen', List.take_append_drop]
  rw [hsplit] at hmono
  rw [congrArg List.flatten hsplit]
  refine scan_flatten horder ho ?_ (hfirst.get hlen hlen') (List.forall₂_drop (i + 1) hfirst) hmono
  intro hlt e he
  rw [List.head?_drop] at he
  obtain ⟨o', hget', ho'⟩ := order_of_getElem? horders he
  rw [ho', hnext hlt o' hget']

/-! ### Searching below a node -/

section Search

variable {κ : Type} {S : Storage σ} {t : Tree} {key : ByteArray → κ}

/-- Each entry of a visited node compares like the first entry that it holds. -/
theorem forall₂_likeFirst (hw : S.WellIndexed t key)
    (hkey : ∀ a b, key a = key b → order a = order b) {depth : Nat} {node : Node}
    {entries : List Entry} {parts : List (List Entry)} (hvisits : S.Visits t (depth + 1) node)
    (hentries : node.HasEntries t.info entries)
    (hparts : List.Forall₂ (S.Holds t depth node) entries parts) :
    List.Forall₂ order.LikeFirst entries parts := by
  rw [List.forall₂_iff_get] at hparts ⊢
  refine ⟨hparts.1, fun i hi hi' => ?_⟩
  have hentry := hentries.2 i _ (List.getElem?_eq_getElem hi)
  obtain ⟨first, rest, hpart, heq⟩ := exists_first_of_holds hw hvisits hentry (hparts.2 i hi hi')
  exact ⟨first, rest, hpart, hkey _ _ heq⟩

/-- If everything below a node can be compared, so can its entries. -/
theorem compares_of_likeFirst {entries : List Entry} {parts : List (List Entry)}
    (hfirst : List.Forall₂ order.LikeFirst entries parts)
    (h : ∀ e ∈ parts.flatten, ∃ o, order e.key = .ok o) :
    ∀ e ∈ entries, ∃ o, order e.key = .ok o := by
  intro e he
  obtain ⟨part, hpart, first, rest, rfl, heq⟩ := exists_mem_of_forall₂ hfirst he
  rw [heq]
  exact h first (List.mem_flatten_of_mem hpart List.mem_cons_self)

/-- **Searching below a node** gives what a scan gives.  By induction on the number of nodes that
    may be followed: the floor of a node leads to the part of the tree that holds the answer. -/
theorem outcome_searchFrom (hw : S.WellIndexed t key)
    (hkey : ∀ a b, key a = key b → order a = order b) {depth : Nat} {node : Node}
    {part : List Entry} {s : σ} (hs : S.Valid s) (hvisits : S.Visits t depth node)
    (hspans : S.Spans t depth node part) (hmono : order.Monotone part) :
    outcome (t.searchFrom S.reader S.lookup order mode depth node) s
        = .ok (mode.scan order part) ∧
      S.Valid (after (t.searchFrom S.reader S.lookup order mode depth node) s) := by
  induction depth generalizing node part s with
  | zero => exact hspans.elim
  | succ depth ih =>
    obtain ⟨entries, parts, hentries, rfl, hparts⟩ := (S.spans_succ t).mp hspans
    have hfirst : List.Forall₂ order.LikeFirst entries parts :=
      forall₂_likeFirst hw hkey hvisits hentries hparts
    obtain ⟨orders, horders⟩ := exists_orders (compares_of_likeFirst hfirst hmono.compares)
    obtain ⟨answer, hanswer, hfloor⟩ := floor_isFloor hentries horders
    rw [Tree.searchFrom, outcome_bind, after_bind, outcome_lift, after_lift, hanswer]
    cases answer with
    | none =>
      rw [scan_flatten_eq_none hfirst hmono]
      · exact ⟨rfl, hs⟩
      · intro e he
        rw [List.head?_eq_getElem?] at he
        obtain ⟨o, hget, ho⟩ := order_of_getElem? horders he
        rw [ho, hfloor o hget]
    | some found =>
      obtain ⟨i, o⟩ := found
      obtain ⟨entry, part, hi, hpart, horder, hscan⟩ :=
        scan_of_isFloor mode horders hfirst hmono hfloor
      have hentry : node.entry i t.info = .ok entry := hentries.2 i entry hi
      rw [hscan]
      have hholds : S.Holds t depth node entry part := by
        obtain ⟨hlen, rfl⟩ := List.getElem?_eq_some_iff.mp hi
        obtain ⟨hlen', rfl⟩ := List.getElem?_eq_some_iff.mp hpart
        exact hparts.get hlen hlen'
      by_cases hleaf : node.header.isLeaf
      · rw [Storage.Holds, if_pos hleaf] at hholds
        rw [hholds, scan_singleton horder hfloor.2.1]
        dsimp only
        rw [if_pos hleaf]
        by_cases haccepts : mode.accepts o
        · rw [if_pos haccepts, if_pos haccepts, hentry, outcome_bind, after_bind, outcome_lift,
            after_lift]
          exact ⟨rfl, hs⟩
        · rw [if_neg haccepts, if_neg haccepts]
          exact ⟨rfl, hs⟩
      · rw [Storage.Holds, if_neg hleaf] at hholds
        obtain ⟨child, hchild, hspans'⟩ := hholds
        dsimp only
        rw [if_neg hleaf, hentry, outcome_bind, after_bind, outcome_lift, after_lift]
        dsimp only
        rw [outcome_bind, after_bind, hchild.outcome_eq hs]
        rw [Bool.not_eq_true] at hleaf
        exact ih ((S.steady_child t node entry).valid_after hs)
          (.child hvisits hleaf hentry hchild) hspans'
          (hmono.of_mem_flatten (List.mem_of_getElem? hpart))

/-- **Searching agrees with scanning.**  If a walk visits `entries`, the tree is well indexed and
    the comparisons along `entries` are sorted, then a search gives the entry that answers it in
    a scan of `entries`, whatever the storage has been asked before. -/
theorem search_eq_scan {entries : List Entry} {s s' : σ} (hs : S.Valid s)
    (hwalk : S.entries t s = .ok entries s') (hindexed : S.WellIndexed t id)
    (hsorted : order.Sorted entries) {r : σ} (hr : S.Valid r) :
    outcome (t.search S.reader S.lookup order mode) r = .ok (mode.scan order entries) :=
  (outcome_searchFrom hindexed (fun _ _ h => congrArg order h) hr .root
    (spans_of_entriesFrom hs hwalk) hsorted.monotone).1

/-! A tree with the keys 97 and 99, each in a leaf of its own, below which 98 is looked for. -/

/-- The entries of the two leaves. -/
def twoLeaves : List (List Entry) :=
  [[⟨⟨#[97]⟩, ⟨#[1]⟩⟩], [⟨⟨#[99]⟩, ⟨#[2]⟩⟩]]

theorem fits_twoLeaves :
    ∀ c ∈ treeContents ⟨0xff⟩ 0 twoLeaves, c.requiredSize ≤ 256 := by
  decide +kernel

/-- Compares the first byte of a key. -/
def firstByteOrder (target : UInt8) : KeyOrder :=
  fun key => .ok (compare (Bytes.get key 0) target)

/-- The last key that is not greater than 98 is 97, in the first leaf, and 99 is in the second. -/
theorem search_twoLeaves :
    ∃ d t, writtenTree ⟨0xff⟩ 256 twoLeaves = .ok (d, t) ∧
      outcome (t.search d.reader .empty (firstByteOrder 98) .lessOrEqual) ()
        = .ok (some ⟨⟨#[97]⟩, ⟨#[1]⟩⟩) ∧
      outcome (t.search d.reader .empty (firstByteOrder 99) .exact) ()
        = .ok (some ⟨⟨#[99]⟩, ⟨#[2]⟩⟩) := by
  obtain ⟨d, t, hwritten, hleaves, -⟩ :=
    exists_writtenTree fits_twoLeaves (by decide) (by decide) (by decide)
  obtain ⟨_, -, hwalk⟩ := hleaves.entries_eq (s := ()) trivial
  have hindexed := hleaves.wellIndexed (forall₂_indexEntries id (by decide))
  exact ⟨d, t, hwritten,
    search_eq_scan trivial hwalk hindexed ⟨1, 0, 1, by decide, rfl⟩ trivial,
    search_eq_scan trivial hwalk hindexed ⟨1, 1, 0, by decide, rfl⟩ trivial⟩

end Search

end Apfs
