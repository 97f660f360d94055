import Apfs.Proofs.ObjectMap.Resolver
import Apfs.Proofs.Tree.Scan

namespace Apfs

/-!
# Versions of objects

An object map holds a mapping for each version of an object.  A transaction sees the version with
the greatest transaction that is not greater than its own, and nothing if that one is a deletion.

* `ObjectMap.mappings`, `mappings_of_spans` — the mappings that a walk visits.
* `IsCandidate`, `Newest` — the versions of an object that a transaction may see, and the one that
  counts.
* `Sees` — what a transaction sees.
* `exists_sees_latest?`, `exists_sees` — object maps and resolvers give what the transaction sees.
-/

variable {σ : Type}

/-! ### The order of keys -/

instance : Std.TransOrd ObjectMapKey :=
  inferInstanceAs (Std.TransCmp (compareLex (compareOn fun k : ObjectMapKey => k.object.value)
    (compareOn fun k => k.transaction.value)))

/-- Keys are ordered by object, then by transaction. -/
theorem compare_eq_lt_iff {a b : ObjectMapKey} :
    compare a b = .lt ↔ a.object.value < b.object.value ∨
      a.object.value = b.object.value ∧ a.transaction.value < b.transaction.value := by
  show (compare a.object.value b.object.value).then _ = .lt ↔ _
  rw [Ordering.then_eq_lt, Std.compare_eq_lt, Std.compare_eq_iff_eq, Std.compare_eq_lt]

theorem compare_eq_gt_iff {a b : ObjectMapKey} : compare a b = .gt ↔ compare b a = .lt := by
  rw [compare_eq_lt_iff]
  show (compare a.object.value b.object.value).then _ = .gt ↔ _
  rw [Ordering.then_eq_gt, Std.compare_eq_gt, Std.compare_eq_iff_eq, Std.compare_eq_gt,
    eq_comm (a := a.object.value)]

/-! ### Mappings -/

/-- A mapping of an object map: its key and its value. -/
abbrev Mapping := ObjectMapKey × ObjectMapValue

/-- The mappings that a walk visits, in order. -/
def ObjectMap.mappings (m : ObjectMap) (B : BlockSource σ) : EStateM Error σ (List Mapping) :=
  gather (m.walk (B.reader.extend (List Mapping)) fun key value => note (key, value))

/-- The key and the value of an entry of an object map's tree. -/
def Decodes (e : Entry) (mapping : Mapping) : Prop :=
  decode e.key = .ok mapping.1 ∧ decode e.value = .ok mapping.2

/-- The entry that stands for a mapping. -/
def mappingEntry (mapping : Mapping) : Entry := ⟨encoded mapping.1, encoded mapping.2⟩

theorem decodes_mappingEntry (mapping : Mapping) : Decodes (mappingEntry mapping) mapping :=
  ⟨decode_of_standsAt (Bytes.standsAt_self _), decode_of_standsAt (Bytes.standsAt_self _)⟩

/-- A visitor that notes mappings down decodes the entries that it is given. -/
theorem makes_noteMapping :
    Makes (σ := σ) (fun entry => do
      let key ← lift (decode entry.key)
      let value ← lift (decode entry.value)
      note (key, value))
    fun (e : Entry) (a b : List Mapping) => ∃ mapping, Decodes e mapping ∧ b = a ++ [mapping] := by
  intro e s a s' b
  have hnote (mapping : Mapping) : note (σ := σ) mapping (s, a) = .ok () (s', b) ↔
      s' = s ∧ b = a ++ [mapping] := by
    rw [eq_ok_iff]
    simp [note, eq_comm]
  simp only [bind_eq_ok_iff, lift_eq_ok_iff]
  constructor
  · rintro ⟨key, p, ⟨hkey, rfl⟩, value, p, ⟨hvalue, rfl⟩, h⟩
    obtain ⟨rfl, rfl⟩ := (hnote _).mp h
    exact ⟨rfl, (key, value), ⟨hkey, hvalue⟩, rfl⟩
  · rintro ⟨rfl, mapping, ⟨hkey, hvalue⟩, rfl⟩
    exact ⟨mapping.1, (s', a), ⟨hkey, rfl⟩, mapping.2, (s', a), ⟨hvalue, rfl⟩,
      (hnote mapping).mpr ⟨rfl, rfl⟩⟩

/-- Along entries, it notes down the mappings that they stand for. -/
theorem visitorRun_noteMapping {entries : List Entry} {a b : List Mapping} :
    VisitorRun (fun e a b => ∃ mapping, Decodes e mapping ∧ b = a ++ [mapping]) entries a b ↔
      ∃ M, List.Forall₂ Decodes entries M ∧ b = a ++ M := by
  induction entries generalizing a with
  | nil => simp [VisitorRun, eq_comm]
  | cons e entries ih =>
    simp only [VisitorRun, ih, List.forall₂_cons_left_iff]
    constructor
    · rintro ⟨_, ⟨mapping, hdecodes, rfl⟩, M, hM, rfl⟩
      exact ⟨mapping :: M, ⟨mapping, M, hdecodes, hM, rfl⟩, by simp⟩
    · rintro ⟨_, ⟨mapping, M, hdecodes, hM, rfl⟩, rfl⟩
      exact ⟨_, ⟨mapping, hdecodes, rfl⟩, M, hM, by simp⟩

section

variable {m : ObjectMap} {B : BlockSource σ} {s : σ} {M : List Mapping} (hs : B.Valid s)
include hs

/-- The mappings are those that the entries of the tree stand for. -/
theorem spans_of_mappings {s' : σ} (h : m.mappings B s = .ok M s') :
    ∃ entries, B.storage.Spans m.tree Tree.maxDepth m.tree.root entries ∧
      List.Forall₂ Decodes entries M := by
  obtain ⟨-, entries, hspans, hvisited⟩ :=
    spans_of_walkFrom (S := B.storage) makes_noteMapping hs (gather_eq_ok_iff.mp h)
  obtain ⟨M', hM', hM⟩ := visitorRun_noteMapping.mp hvisited
  rw [List.nil_append] at hM
  exact ⟨entries, hspans, hM ▸ hM'⟩

/-- If the entries of the tree stand for mappings, a walk visits these. -/
theorem mappings_of_spans {entries : List Entry}
    (hspans : B.storage.Spans m.tree Tree.maxDepth m.tree.root entries)
    (hM : List.Forall₂ Decodes entries M) : ∃ s', B.Valid s' ∧ m.mappings B s = .ok M s' := by
  obtain ⟨s', hs', hwalk⟩ := walkFrom_of_spans (S := B.storage) makes_noteMapping hs hspans
    (visitorRun_noteMapping.mpr ⟨M, hM, (List.nil_append M).symm⟩)
  exact ⟨s', hs', gather_eq_ok_iff.mpr hwalk⟩

end

/-! ### What a transaction sees -/

/-- The mapping is that of a version of the object which is not newer than the transaction. -/
def IsCandidate (object : VirtualId) (transaction : TransactionId) (mapping : Mapping) : Prop :=
  mapping.1.object = object ∧ mapping.1.transaction.value ≤ transaction.value

/-- Of the versions of the object that are not newer than the transaction, the mapping is that of
    the newest. -/
def Newest (M : List Mapping) (object : VirtualId) (transaction : TransactionId)
    (mapping : Mapping) : Prop :=
  mapping ∈ M ∧ IsCandidate object transaction mapping ∧
    ∀ other ∈ M, IsCandidate object transaction other →
      other.1.transaction.value ≤ mapping.1.transaction.value

/-- What a transaction sees of an object. -/
inductive Sees (M : List Mapping) (object : VirtualId) (transaction : TransactionId) :
    Option Mapping → Prop
  /-- The newest version is live. -/
  | live {mapping : Mapping} : Newest M object transaction mapping →
    mapping.2.isDeleted = false → Sees M object transaction (some mapping)
  /-- The newest version is a deletion, and hides older ones. -/
  | deleted {mapping : Mapping} : Newest M object transaction mapping →
    mapping.2.isDeleted = true → Sees M object transaction none
  /-- There is no version yet. -/
  | missing : (∀ mapping ∈ M, ¬ IsCandidate object transaction mapping) →
    Sees M object transaction none

/-- The keys of the mappings ascend strictly. -/
def Ascending (M : List Mapping) : Prop :=
  M.Pairwise fun a b => compare a.1 b.1 = .lt

/-- How the key of a mapping compares, the key of its entry does. -/
theorem Decodes.keyOrder {e : Entry} {mapping : Mapping} (h : Decodes e mapping)
    (target : ObjectMapKey) : ObjectMap.keyOrder target e.key = .ok (compare mapping.1 target) := by
  unfold ObjectMap.keyOrder
  rw [h.1]
  rfl

/-- Along ascending mappings, comparisons with any target are monotone. -/
theorem monotone_of_ascending {entries : List Entry} {M : List Mapping}
    (h : List.Forall₂ Decodes entries M) (hM : Ascending M) (target : ObjectMapKey) :
    (ObjectMap.keyOrder target).Monotone entries := by
  constructor
  · intro e he
    obtain ⟨mapping, -, hdecodes⟩ := exists_mem_of_forall₂ h he
    exact ⟨_, hdecodes.keyOrder target⟩
  · refine pairwise_of_forall₂ h hM fun e e' mapping mapping' hdecodes hdecodes' hlt => ?_
    unfold Apart
    rw [hdecodes.keyOrder, hdecodes'.keyOrder, Except.ok.injEq, Except.ok.injEq]
    exact lt_or_gt_of_cmp_eq_lt hlt target

/-- If all mappings are after the pair of an object and a transaction, no version may be seen. -/
theorem not_isCandidate_of_gt {object : VirtualId} {transaction : TransactionId}
    {mapping : Mapping} (h : compare mapping.1 ⟨object, transaction⟩ = .gt) :
    ¬ IsCandidate object transaction mapping := by
  rintro ⟨hobject, hle⟩
  rw [compare_eq_gt_iff, compare_eq_lt_iff, hobject] at h
  simp only [UInt64.lt_iff_toNat_lt, UInt64.le_iff_toNat_le] at h hle
  omega

/-- The last of ascending mappings that is not after the pair of an object and a transaction tells
    what the transaction sees. -/
theorem sees_of_split {M₁ M₂ : List Mapping} {mapping : Mapping} {object : VirtualId}
    {transaction : TransactionId} (hM : Ascending (M₁ ++ mapping :: M₂))
    (hle : compare mapping.1 ⟨object, transaction⟩ ≠ .gt)
    (hafter : ∀ other ∈ M₂, compare other.1 ⟨object, transaction⟩ = .gt) :
    Sees (M₁ ++ mapping :: M₂) object transaction
      (if mapping.1.object ≠ object then none
        else if mapping.2.isDeleted then none else some mapping) := by
  have hbefore : ∀ other ∈ M₁ ++ mapping :: M₂, IsCandidate object transaction other →
      other = mapping ∨ compare other.1 mapping.1 = .lt := by
    intro other hother hcandidate
    rcases List.mem_append.mp hother with h | h
    · exact .inr ((List.pairwise_append.mp hM).2.2 other h mapping List.mem_cons_self)
    · rcases List.mem_cons.mp h with h | h
      · exact .inl h
      · exact absurd hcandidate (not_isCandidate_of_gt (hafter other h))
  rw [ne_eq, compare_eq_gt_iff, compare_eq_lt_iff] at hle
  by_cases hobject : mapping.1.object = object
  · have hnewest : Newest (M₁ ++ mapping :: M₂) object transaction mapping := by
      refine ⟨List.mem_append_right _ List.mem_cons_self, ⟨hobject, ?_⟩, ?_⟩
      · simp only [hobject, true_and, UInt64.lt_iff_toNat_lt, UInt64.le_iff_toNat_le] at hle ⊢
        omega
      · intro other hother hcandidate
        rcases hbefore other hother hcandidate with rfl | h
        · exact UInt64.le_refl _
        · rw [compare_eq_lt_iff, hcandidate.1, hobject] at h
          simp only [UInt64.lt_iff_toNat_lt, UInt64.le_iff_toNat_le] at h ⊢
          omega
    rw [if_neg (not_not.mpr hobject)]
    by_cases hdeleted : mapping.2.isDeleted
    · rw [if_pos hdeleted]
      exact .deleted hnewest hdeleted
    · rw [if_neg hdeleted]
      rw [Bool.not_eq_true] at hdeleted
      exact .live hnewest hdeleted
  · rw [if_pos hobject]
    refine .missing fun other hother hcandidate => ?_
    rcases hbefore other hother hcandidate with rfl | h
    · exact hobject hcandidate.1
    · -- A candidate before the last mapping would force the last one to be of its object.
      apply hobject
      rw [compare_eq_lt_iff, hcandidate.1] at h
      have heq : mapping.1.object.value = object.value := by
        simp only [UInt64.lt_iff_toNat_lt, ← UInt64.toNat_inj] at h hle ⊢
        omega
      calc mapping.1.object = ⟨mapping.1.object.value⟩ := rfl
        _ = object := by rw [heq]

/-! ### Looking up versions -/

/-- Two related lists, the first of which is in two parts. -/
theorem exists_split_of_forall₂ {α β : Type} {R : α → β → Prop} {l₁ l₂ : List α} {m : List β}
    (h : List.Forall₂ R (l₁ ++ l₂) m) :
    ∃ m₁ m₂, m = m₁ ++ m₂ ∧ List.Forall₂ R l₁ m₁ ∧ List.Forall₂ R l₂ m₂ := by
  refine ⟨m.take l₁.length, m.drop l₁.length, (List.take_append_drop ..).symm, ?_, ?_⟩
  · have htake := List.forall₂_take l₁.length h
    rwa [List.take_left] at htake
  · have hdrop := List.forall₂_drop l₁.length h
    rwa [List.drop_left] at hdrop

/-- What a scan finds among the entries of an object map's tree tells what a transaction sees. -/
theorem sees_of_scan {entries : List Entry} {M : List Mapping} (hM : Ascending M)
    (h : List.Forall₂ Decodes entries M) (object : VirtualId) (transaction : TransactionId) :
    match SearchMode.lessOrEqual.scan (ObjectMap.keyOrder ⟨object, transaction⟩) entries with
    | none => Sees M object transaction none
    | some e => ∃ mapping, Decodes e mapping ∧ Sees M object transaction
        (if mapping.1.object ≠ object then none
          else if mapping.2.isDeleted then none else some mapping) := by
  have hgt {e : Entry} {mapping : Mapping} (hdecodes : Decodes e mapping) :
      (ObjectMap.keyOrder ⟨object, transaction⟩).answers .gt e = true ↔
        compare mapping.1 ⟨object, transaction⟩ = .gt := by
    rw [answers_iff, hdecodes.keyOrder, Except.ok.injEq]
  cases hscan : SearchMode.lessOrEqual.scan (ObjectMap.keyOrder ⟨object, transaction⟩) entries with
  | none =>
    refine .missing fun mapping hmem => ?_
    obtain ⟨e, he, hdecodes⟩ := exists_mem_of_forall₂ h.flip hmem
    exact not_isCandidate_of_gt ((hgt hdecodes).mp (answers_gt_of_scan_eq_none hscan e he))
  | some e =>
    obtain ⟨before, rest, rfl, he, hrest⟩ := exists_of_scan_eq_some hscan
    obtain ⟨M₁, M₂, rfl, -, hsuffix⟩ := exists_split_of_forall₂ h
    obtain ⟨mapping, M₂, hdecodes, hrelated, rfl⟩ := List.forall₂_cons_left_iff.mp hsuffix
    refine ⟨mapping, hdecodes, sees_of_split hM ?_ fun other hother => ?_⟩
    · rw [ne_eq, ← hgt hdecodes, he]
      exact Bool.false_ne_true
    · obtain ⟨e', he', hdecodes'⟩ := exists_mem_of_forall₂ hrelated.flip hother
      exact (hgt hdecodes').mp (hrest e' he')

/-- An object map gives nothing where a search in its tree finds nothing. -/
theorem outcome_latest?_of_none {m : ObjectMap} {reader : BlockReader σ} {object : VirtualId}
    {transaction : TransactionId} {s : σ}
    (h : outcome (m.tree.search reader .empty (ObjectMap.keyOrder ⟨object, transaction⟩)
      .lessOrEqual) s = .ok none) :
    outcome (m.latest? reader object transaction) s = .ok none := by
  unfold ObjectMap.latest?
  rw [outcome_bind, h]
  rfl

/-- An object map gives the mapping that a search in its tree finds, if it is one of the object and
    not a deletion. -/
theorem outcome_latest?_of_some {m : ObjectMap} {reader : BlockReader σ} {object : VirtualId}
    {transaction : TransactionId} {s : σ} {e : Entry} {mapping : Mapping}
    (h : outcome (m.tree.search reader .empty (ObjectMap.keyOrder ⟨object, transaction⟩)
      .lessOrEqual) s = .ok (some e)) (hdecodes : Decodes e mapping) :
    outcome (m.latest? reader object transaction) s
      = .ok (if mapping.1.object ≠ object then none
          else if mapping.2.isDeleted then none else some mapping) := by
  unfold ObjectMap.latest?
  rw [outcome_bind, h]
  dsimp only
  rw [outcome_bind, outcome_lift, after_lift, hdecodes.1]
  dsimp only
  by_cases hobject : mapping.1.object ≠ object
  · rw [if_pos hobject, if_pos hobject]
    rfl
  · rw [if_neg hobject, if_neg hobject, outcome_bind, outcome_lift, hdecodes.2]
    rfl

/-- An object map gives what a transaction sees, if its tree holds ascending mappings and is well
    indexed. -/
theorem exists_sees_latest? {B : BlockSource σ} {m : ObjectMap} {entries : List Entry}
    {M : List Mapping} (hspans : B.storage.Spans m.tree Tree.maxDepth m.tree.root entries)
    (hdecodes : List.Forall₂ Decodes entries M)
    (hindexed : B.storage.WellIndexed m.tree (decode : ByteArray → Except Error ObjectMapKey))
    (hM : Ascending M) (object : VirtualId) (transaction : TransactionId) :
    ∃ seen, Sees M object transaction seen ∧
      ∀ r, B.Valid r → outcome (m.latest? B.reader object transaction) r = .ok seen := by
  have hsearch (r : σ) (hr : B.Valid r) :
      outcome (m.tree.searchFrom B.storage.reader B.storage.lookup
          (ObjectMap.keyOrder ⟨object, transaction⟩) .lessOrEqual Tree.maxDepth m.tree.root) r
        = .ok (SearchMode.lessOrEqual.scan (ObjectMap.keyOrder ⟨object, transaction⟩) entries) :=
    (outcome_searchFrom hindexed (fun _ _ h => by rw [ObjectMap.keyOrder, h]; rfl) hr .root hspans
      (monotone_of_ascending hdecodes hM ⟨object, transaction⟩)).1
  have hsees := sees_of_scan hM hdecodes object transaction
  cases hscan : SearchMode.lessOrEqual.scan (ObjectMap.keyOrder ⟨object, transaction⟩) entries
  all_goals rw [hscan] at hsees hsearch
  case none =>
    exact ⟨none, hsees, fun r hr => outcome_latest?_of_none (hsearch r hr)⟩
  case some e =>
    obtain ⟨mapping, hentry, hsees⟩ := hsees
    exact ⟨_, hsees, fun r hr => outcome_latest?_of_some (hsearch r hr) hentry⟩

/-- **Version selection.**  If a walk of an object map visits ascending mappings and its tree is
    well indexed, then looking an object up gives what the transaction sees of it, and a resolver
    gives the address of that, whatever it was asked before. -/
theorem exists_sees {B : BlockSource σ} {m : ObjectMap} {M : List Mapping} {s s' : σ}
    (hs : B.Valid s) (hwalk : m.mappings B s = .ok M s')
    (hindexed : B.storage.WellIndexed m.tree (decode : ByteArray → Except Error ObjectMapKey))
    (hM : Ascending M) (object : VirtualId) (transaction : TransactionId) :
    ∃ seen, Sees M object transaction seen ∧
      (∀ r, B.Valid r → outcome (m.latest? B.reader object transaction) r = .ok seen) ∧
      ∀ remembers r asked, B.Valid r →
        let resolver : Resolver := ⟨m, remembers⟩
        outcome (resolver.resolve B.reader object transaction)
          (resolver.serve B.reader (r, ∅) asked) = .ok (seen.map fun mapping => mapping.2.address) := by
  obtain ⟨entries, hspans, hdecodes⟩ := spans_of_mappings hs hwalk
  obtain ⟨seen, hseen, hlookup⟩ :=
    exists_sees_latest? hspans hdecodes hindexed hM object transaction
  refine ⟨seen, hseen, hlookup, fun remembers r asked hr => ?_⟩
  have hserved := Resolver.valid_serve B ⟨m, remembers⟩ (Resolver.valid_empty B _ hr) asked
  exact (Resolver.outcome_resolve B _ hserved hr object transaction).trans
    (congrArg _ (hlookup r hr))

/-! Two versions of an object, the second of which is a deletion, each in a leaf of its own. -/

/-- The mapping of the first version of object 5. -/
def firstVersion : Mapping := (⟨⟨5⟩, ⟨1⟩⟩, ⟨⟨0⟩, 4096, ⟨100⟩⟩)

/-- The mappings of both versions. -/
def twoVersions : List Mapping := [firstVersion, (⟨⟨5⟩, ⟨3⟩⟩, ⟨.deleted, 0, ⟨0⟩⟩)]

/-- The leaves with these mappings. -/
def versionLeaves : List (List Entry) := twoVersions.map fun mapping => [mappingEntry mapping]

theorem decodes_versionLeaves : List.Forall₂ Decodes versionLeaves.flatten twoVersions :=
  .cons (decodes_mappingEntry _) (.cons (decodes_mappingEntry _) .nil)

theorem ascending_twoVersions : Ascending twoVersions := by
  unfold Ascending twoVersions
  decide

/-- Transaction 2 comes after the first version and before the second. -/
theorem eq_of_sees_twoVersions {seen : Option Mapping} (h : Sees twoVersions ⟨5⟩ ⟨2⟩ seen) :
    seen = some firstVersion := by
  cases h with
  | live hnewest =>
    rcases List.mem_pair.mp hnewest.1 with rfl | rfl
    · rfl
    · exact absurd hnewest.2.1.2 (by decide)
  | deleted hnewest hdeleted =>
    rcases List.mem_pair.mp hnewest.1 with rfl | rfl
    · exact absurd hdeleted (by decide)
    · exact absurd hnewest.2.1.2 (by decide)
  | missing hnone => exact absurd ⟨rfl, by decide⟩ (hnone _ List.mem_cons_self)

/-- Transaction 2 sees the first version.  Transaction 4 sees the deletion, and no older version in
    its place, also from a resolver that remembers the older one. -/
theorem sees_twoVersions :
    ∃ d t, writtenTree .objectMap 512 versionLeaves = .ok (d, t) ∧
      let resolver : Resolver := ⟨⟨default, t⟩, true⟩
      let asked := resolver.serve d.reader ((), ∅) [(⟨5⟩, ⟨2⟩)]
      outcome (resolver.resolve d.reader ⟨5⟩ ⟨2⟩) asked = .ok (some ⟨100⟩) ∧
        outcome (resolver.resolve d.reader ⟨5⟩ ⟨4⟩) asked = .ok none := by
  have hfits : ∀ c ∈ treeContents .objectMap 0 versionLeaves, c.requiredSize ≤ 512 := by
    decide +kernel
  obtain ⟨d, t, hwritten, hleaves, -⟩ :=
    exists_writtenTree hfits (by decide) (by decide) (by decide)
  obtain ⟨_, -, hwalk⟩ := mappings_of_spans (m := ⟨default, t⟩) (s := ()) trivial hleaves.spans
    decodes_versionLeaves
  have hindexed := hleaves.wellIndexed
    (forall₂_indexEntries (decode : ByteArray → Except Error ObjectMapKey) (by decide))
  refine ⟨d, t, hwritten, ?_, ?_⟩
  · obtain ⟨seen, hsees, -, hresolve⟩ :=
      exists_sees trivial hwalk hindexed ascending_twoVersions ⟨5⟩ ⟨2⟩
    obtain rfl := eq_of_sees_twoVersions hsees
    exact hresolve true () _ trivial
  · obtain ⟨seen, hsees, -, hresolve⟩ :=
      exists_sees trivial hwalk hindexed ascending_twoVersions ⟨5⟩ ⟨4⟩
    refine (hresolve true () _ trivial).trans ?_
    cases hsees with
    | live hnewest hlive =>
      -- The deletion is a newer version than the live one.
      rcases List.mem_pair.mp hnewest.1 with rfl | rfl
      · have hle := hnewest.2.2 _ (List.mem_cons_of_mem _ List.mem_cons_self) ⟨rfl, by decide⟩
        exact absurd hle (by decide)
      · exact absurd hlive (by decide)
    | deleted => rfl
    | missing => rfl

end Apfs
