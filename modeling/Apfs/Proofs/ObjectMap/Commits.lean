import Apfs.Proofs.ObjectMap.Versions

namespace Apfs

/-!
# Old roots and later commits

A commit adds mappings with later transactions to an object map and writes the blocks that they
point to.  A tree whose root is older does not see any of this: every child is looked up as the
transaction of the root sees it, whatever else the object map holds and however its own tree is
shaped.

* `ObjectMap.Holds` — an object map in a well-indexed tree, and its mappings.
* `Storage.Uses` — storage that looks objects up in an object map, or with a resolver for one.
* `SameUntil`, `SameBlocks` — the same mappings up to a transaction, and the same blocks there.
* `Sees.unique`, `Sees.of_sameUntil` — a transaction sees one thing, and nothing later.
* `agree_childBlock_of_sameUntil` — the block of a child is the same after later commits.
* `search_walk_of_sameUntil` — so are searches and walks.
-/

variable {σ τ ρ υ : Type}

/-! ### What a transaction sees -/

section

variable {M M' : List Mapping} {object : VirtualId} {transaction : TransactionId}

/-- Among ascending mappings there is only one for a key. -/
theorem Ascending.eq_of_key_eq (hM : Ascending M) {a b : Mapping} (ha : a ∈ M) (hb : b ∈ M)
    (hkey : a.1 = b.1) : a = b := by
  have hnodup : (M.map Prod.fst).Nodup := by
    refine List.pairwise_map.mpr (hM.imp fun {a b} hlt heq => ?_)
    rw [heq, compare_eq_lt_iff] at hlt
    simp at hlt
  exact List.inj_on_of_nodup_map hnodup ha hb hkey

/-- There is only one newest version. -/
theorem Newest.unique (hM : Ascending M) {a b : Mapping} (ha : Newest M object transaction a)
    (hb : Newest M object transaction b) : a = b := by
  have hobject : a.1.object = b.1.object := ha.2.1.1.trans hb.2.1.1.symm
  have htransaction : a.1.transaction.value = b.1.transaction.value :=
    UInt64.le_antisymm (hb.2.2 a ha.1 ha.2.1) (ha.2.2 b hb.1 hb.2.1)
  refine hM.eq_of_key_eq ha.1 hb.1 ?_
  calc a.1 = ⟨a.1.object, ⟨a.1.transaction.value⟩⟩ := rfl
    _ = ⟨b.1.object, ⟨b.1.transaction.value⟩⟩ := by rw [hobject, htransaction]

/-- A transaction sees one thing. -/
theorem Sees.unique (hM : Ascending M) {a b : Option Mapping} (ha : Sees M object transaction a)
    (hb : Sees M object transaction b) : a = b := by
  cases ha with
  | live hnewest hlive =>
    cases hb with
    | live hnewest' _ => rw [hnewest.unique hM hnewest']
    | deleted hnewest' hdeleted =>
      rw [hnewest.unique hM hnewest', hdeleted] at hlive
      cases hlive
    | missing hnone => exact absurd hnewest.2.1 (hnone _ hnewest.1)
  | deleted hnewest hdeleted =>
    cases hb with
    | live hnewest' hlive =>
      rw [hnewest.unique hM hnewest', hlive] at hdeleted
      cases hdeleted
    | deleted _ _ => rfl
    | missing _ => rfl
  | missing hnone =>
    cases hb with
    | live hnewest _ => exact absurd hnewest.2.1 (hnone _ hnewest.1)
    | deleted _ _ => rfl
    | missing _ => rfl

/-- The lists hold the same mappings up to a transaction.  Later ones may differ. -/
def SameUntil (x : TransactionId) (M M' : List Mapping) : Prop :=
  ∀ mapping : Mapping, mapping.1.transaction.value ≤ x.value → (mapping ∈ M ↔ mapping ∈ M')

/-- Which version is the newest for a transaction does not depend on later ones. -/
theorem Newest.of_sameUntil {x : TransactionId} (hsame : SameUntil x M M')
    (hle : transaction.value ≤ x.value) {mapping : Mapping}
    (h : Newest M object transaction mapping) : Newest M' object transaction mapping := by
  obtain ⟨hmem, hcandidate, hnewest⟩ := h
  refine ⟨(hsame mapping (UInt64.le_trans hcandidate.2 hle)).mp hmem, hcandidate, ?_⟩
  intro other hother hcandidate'
  exact hnewest other ((hsame other (UInt64.le_trans hcandidate'.2 hle)).mpr hother) hcandidate'

/-- What a transaction sees does not depend on later versions. -/
theorem Sees.of_sameUntil {x : TransactionId} (hsame : SameUntil x M M')
    (hle : transaction.value ≤ x.value) {seen : Option Mapping}
    (h : Sees M object transaction seen) : Sees M' object transaction seen := by
  cases h with
  | live hnewest hlive => exact .live (hnewest.of_sameUntil hsame hle) hlive
  | deleted hnewest hdeleted => exact .deleted (hnewest.of_sameUntil hsame hle) hdeleted
  | missing hnone =>
    refine .missing fun mapping hmem hcandidate => ?_
    have hmem' := (hsame mapping (UInt64.le_trans hcandidate.2 hle)).mpr hmem
    exact hnone mapping hmem' hcandidate

end

/-! ### Object maps and their mappings -/

/-- The object map is well formed: a walk visits exactly the given mappings, their keys ascend,
    and the index keys of the tree are right. -/
structure ObjectMap.Holds (m : ObjectMap) (B : BlockSource σ) (M : List Mapping) : Prop where
  /-- A walk visits the mappings. -/
  walk : ∃ s s', B.Valid s ∧ m.mappings B s = .ok M s'
  /-- The keys in index nodes are those of their children. -/
  indexed : B.storage.WellIndexed m.tree (decode : ByteArray → Except Error ObjectMapKey)
  /-- The keys ascend strictly. -/
  ascending : Ascending M

/-- A lookup gives what the transaction sees. -/
theorem ObjectMap.Holds.outcome_latest? {m : ObjectMap} {B : BlockSource σ} {M : List Mapping}
    (h : m.Holds B M) (object : VirtualId) (transaction : TransactionId) :
    ∃ seen, Sees M object transaction seen ∧
      ∀ r, B.Valid r → outcome (m.latest? B.reader object transaction) r = .ok seen := by
  obtain ⟨s, s', hs, hwalk⟩ := h.walk
  obtain ⟨entries, hspans, hdecodes⟩ := spans_of_mappings hs hwalk
  have hmono := monotone_of_ascending hdecodes h.ascending ⟨object, transaction⟩
  have hsees := sees_of_scan h.ascending hdecodes object transaction
  have hsearch (r : σ) (hr : B.Valid r) :
      outcome (m.tree.search B.reader .empty (ObjectMap.keyOrder ⟨object, transaction⟩)
          .lessOrEqual) r
        = .ok (SearchMode.lessOrEqual.scan (ObjectMap.keyOrder ⟨object, transaction⟩) entries) :=
    (outcome_searchFrom h.indexed (fun _ _ hab => by rw [ObjectMap.keyOrder, hab]; rfl) hr .root
      hspans hmono).1
  cases hscan : SearchMode.lessOrEqual.scan (ObjectMap.keyOrder ⟨object, transaction⟩) entries with
  | none =>
    rw [hscan] at hsees
    refine ⟨none, hsees, fun r hr => outcome_latest?_of_none ?_⟩
    rw [← hscan]
    exact hsearch r hr
  | some e =>
    rw [hscan] at hsees
    obtain ⟨mapping, hentry, hsees⟩ := hsees
    refine ⟨_, hsees, fun r hr => outcome_latest?_of_some ?_ hentry⟩
    rw [← hscan]
    exact hsearch r hr

/-- The storage reads the blocks of the source, and looks objects up in the object map. -/
structure Storage.Uses (S : Storage ρ) (B : BlockSource σ) (m : ObjectMap) : Prop where
  /-- Readings give what the source does. -/
  read : ∀ address {r s}, S.Valid r → B.Valid s →
    outcome (S.reader.read address) r = outcome (B.reader.read address) s
  /-- Lookups give what the object map does. -/
  lookup : ∀ object transaction {r s}, S.Valid r → B.Valid s →
    outcome (S.lookup object transaction) r
      = outcome (m.latest? B.reader object transaction) s

/-- An object map may be used by itself. -/
theorem BlockSource.withMap_uses (B : BlockSource σ) (m : ObjectMap) : (B.withMap m).Uses B m where
  read address _ _ hr hs := (B.steady_read address).outcome_eq hr hs
  lookup object transaction _ _ hr hs := (B.steady_latest? m object transaction).outcome_eq hr hs

/-- An object map may be used through a resolver, whether or not that remembers mappings. -/
theorem BlockSource.withResolver_uses (B : BlockSource σ) (m : ObjectMap) (remembers : Bool) :
    (B.withResolver ⟨m, remembers⟩).Uses B m where
  read address r _ hr hs := by
    obtain ⟨s, cache⟩ := r
    exact (outcome_onFirst ..).trans ((B.steady_read address).outcome_eq hr.1 hs)
  lookup object transaction _ _ hr hs :=
    (Resolver.agree_lookup B ⟨m, remembers⟩ object transaction ⟨hr, hs⟩).1

/-! ### Trees with old roots -/

/-- A walk with a visitor that judges by the entries it was shown, which are noted down. -/
def Storage.judgedWalk (S : Storage ρ) (t : Tree) (accept : List Entry → Except Error Unit) :
    EStateM Error (ρ × List Entry) Unit :=
  t.walk (S.reader.extend (List Entry)) (S.lookup.extend (List Entry)) (judge accept)

section

variable {B : BlockSource σ} {B' : BlockSource τ} {m m' : ObjectMap} {M M' : List Mapping}
  {x : TransactionId} {S : Storage ρ} {S' : Storage υ} {t : Tree}

/-- What the root's transaction sees of an object is found in both object maps. -/
theorem exists_seen_of_sameUntil (hm : m.Holds B M) (hm' : m'.Holds B' M')
    (hsame : SameUntil x M M') (hS : S.Uses B m) (hS' : S'.Uses B' m') (object : VirtualId)
    {transaction : TransactionId} (hle : transaction.value ≤ x.value) :
    ∃ seen, Sees M object transaction seen ∧
      (∀ r, S.Valid r → outcome (S.lookup object transaction) r = .ok seen) ∧
      ∀ r, S'.Valid r → outcome (S'.lookup object transaction) r = .ok seen := by
  obtain ⟨s, -, hs, -⟩ := hm.walk
  obtain ⟨s', -, hs', -⟩ := hm'.walk
  obtain ⟨seen, hsees, hlatest⟩ := hm.outcome_latest? object transaction
  obtain ⟨seen', hsees', hlatest'⟩ := hm'.outcome_latest? object transaction
  have hseen : seen' = seen := hsees'.unique hm'.ascending (hsees.of_sameUntil hsame hle)
  refine ⟨seen, hsees, fun r hr => ?_, fun r hr => ?_⟩
  · rw [hS.lookup object transaction hr hs, hlatest s hs]
  · rw [hS'.lookup object transaction hr hs', hlatest' s' hs', hseen]

/-- The sources give the same blocks wherever live mappings up to a transaction point to. -/
def SameBlocks (x : TransactionId) (B : BlockSource σ) (B' : BlockSource τ) (M : List Mapping) :
    Prop :=
  ∀ mapping ∈ M, mapping.1.transaction.value ≤ x.value → mapping.2.isDeleted = false →
    ∀ s s', B.Valid s → B'.Valid s' → outcome (B.reader.read mapping.2.address) s
      = outcome (B'.reader.read mapping.2.address) s'

/-- **The block of a child** does not depend on later commits.  The root's transaction sees the
    same version of the child in both object maps, and the blocks it points to are the same. -/
theorem agree_childBlock_of_sameUntil (hm : m.Holds B M) (hm' : m'.Holds B' M')
    (hsame : SameUntil x M M') (hblocks : SameBlocks x B B' M) (hS : S.Uses B m)
    (hS' : S'.Uses B' m') (hvirtual : t.info.parameters.childStorage = .virtual)
    (hroot : t.root.header.object.transaction.value ≤ x.value) (id : ObjectId) :
    AgreeUpTo Eq (fun r r' => S.Valid r ∧ S'.Valid r') (t.childBlock S.reader S.lookup id)
      (t.childBlock S'.reader S'.lookup id) := by
  obtain ⟨seen, hsees, hlookup, hlookup'⟩ :=
    exists_seen_of_sameUntil hm hm' hsame hS hS' id.toVirtual hroot
  unfold Tree.childBlock Tree.childAddress
  rw [hvirtual]
  dsimp only
  rw [bind_assoc, bind_assoc]
  rintro r r' ⟨hr, hr'⟩
  have hvalid := (S.steady_lookup id.toVirtual t.root.header.object.transaction).valid_after hr
  have hvalid' := (S'.steady_lookup id.toVirtual t.root.header.object.transaction).valid_after hr'
  rw [outcome_bind, outcome_bind, after_bind, after_bind, hlookup r hr, hlookup' r' hr']
  cases hsees with
  | deleted _ _ => exact ⟨.error rfl, hvalid, hvalid'⟩
  | missing _ => exact ⟨.error rfl, hvalid, hvalid'⟩
  | @live mapping hnewest hlive =>
    -- The version that is seen is not newer than the root, so its block is the same.
    obtain ⟨s, -, hs, -⟩ := hm.walk
    obtain ⟨s', -, hs', -⟩ := hm'.walk
    have hle := UInt64.le_trans hnewest.2.1.2 hroot
    have hread : AgreeUpTo Eq (fun r r' => S.Valid r ∧ S'.Valid r')
        (S.reader.read mapping.2.address) (S'.reader.read mapping.2.address) := by
      rintro r r' ⟨hr, hr'⟩
      refine ⟨.of_eq ?_, (S.steady_read _).valid_after hr, (S'.steady_read _).valid_after hr'⟩
      calc outcome (S.reader.read mapping.2.address) r
          = outcome (B.reader.read mapping.2.address) s := hS.read _ hr hs
        _ = outcome (B'.reader.read mapping.2.address) s' :=
          hblocks mapping hnewest.1 hle hlive s s' hs hs'
        _ = outcome (S'.reader.read mapping.2.address) r' := (hS'.read _ hr' hs').symm
    exact agreeUpTo_readVerified hread ⟨hvalid, hvalid'⟩

/-- **Old roots are immune to later commits.**  If two object maps hold the same mappings up to a
    transaction, and the blocks that live ones of these point to are the same, then searches and
    walks in a tree with virtual children whose root is not newer give the same with both, and
    walks visit the same entries in the same order. -/
theorem search_walk_of_sameUntil (hm : m.Holds B M) (hm' : m'.Holds B' M')
    (hsame : SameUntil x M M') (hblocks : SameBlocks x B B' M) (hS : S.Uses B m)
    (hS' : S'.Uses B' m') (hvirtual : t.info.parameters.childStorage = .virtual)
    (hroot : t.root.header.object.transaction.value ≤ x.value) {r : ρ} {r' : υ} (hr : S.Valid r)
    (hr' : S'.Valid r') :
    (∀ order mode, outcome (t.search S.reader S.lookup order mode) r
      = outcome (t.search S'.reader S'.lookup order mode) r') ∧
    ∀ accept, outcome (S.judgedWalk t accept) (r, []) = outcome (S'.judgedWalk t accept) (r', []) ∧
      (after (S.judgedWalk t accept) (r, [])).2 = (after (S'.judgedWalk t accept) (r', [])).2 := by
  have hblock := agree_childBlock_of_sameUntil hm hm' hsame hblocks hS hS' hvirtual hroot
  constructor
  · intro order mode
    exact (agreeUpTo_searchFrom hblock order mode _ _ ⟨hr, hr'⟩).1.eq
  · intro accept
    have hwalk : AgreeUpTo Eq (Beside (fun r r' => S.Valid r ∧ S'.Valid r') Eq)
        (S.judgedWalk t accept) (S'.judgedWalk t accept) := by
      refine agreeUpTo_walkFrom (fun id => ?_) (fun e => .of_agree (agree_judge accept e)) _ _
      rw [childBlock_extend, childBlock_extend]
      exact (hblock id).onFirst
    have hstart : Beside (fun r r' => S.Valid r ∧ S'.Valid r') Eq (r, ([] : List Entry)) (r', []) :=
      ⟨⟨hr, hr'⟩, rfl⟩
    obtain ⟨hresult, -, hnoted⟩ := hwalk hstart
    exact ⟨hresult.eq, hnoted⟩

end

/-! A tree with a virtual child, before and after a commit that writes the child anew. -/

/-- The block of the child as transaction 1 wrote it: a leaf with the key 97 and no value. -/
def firstChild : List UInt8 :=
  Layout.toBytes { (default : NodeHeader) with
      object := { (default : ObjectHeader) with
        checksum := 0x3d009affb8feff
        type := .ofParts .treeNode ⟨0⟩ }
      flags := .leaf
      keyCount := 1
      table := ⟨0, 8⟩ } ++
    [0, 0, 1, 0, 255, 255, 0, 0] ++ [97, 0, 0, 0]

/-- The device with that block, and others that were written later. -/
def withFirstChild (later : List UInt8) : Device where
  image := ⟨(firstChild ++ later).toArray⟩
  start := 0
  blockSize := 68
  blockCount := UInt64.ofNat (1 + later.length / 68)

/-- An object map whose tree is a single leaf with these mappings, and this table of contents. -/
def leafMap (M : List Mapping) (table : List UInt8) : ObjectMap where
  header := default
  tree :=
    { root :=
        { block := ⟨⟨1⟩, ⟨(List.replicate (Layout.size NodeHeader) (0 : UInt8) ++ table ++
            M.flatMap (fun (key, _) => Layout.toBytes key) ++
            M.flatMap (fun (_, value) => Layout.toBytes value) ++
            List.replicate (Layout.size TreeInfo) (0 : UInt8)).toArray⟩⟩
          header := { (default : NodeHeader) with
            flags := (NodeFlags.root.union .leaf).union .fixedSize
            keyCount := UInt32.ofNat M.length
            table := ⟨0, UInt16.ofNat table.length⟩ } }
      info := { (default : TreeInfo) with
        parameters := { (default : TreeParameters) with keySize := 16, valueSize := 16 } } }

/-- The mapping of the child as transaction 1 wrote it, and as transaction 3 did. -/
def childMappings : List Mapping :=
  [(⟨⟨5⟩, ⟨1⟩⟩, ⟨⟨0⟩, 68, ⟨0⟩⟩), (⟨⟨5⟩, ⟨3⟩⟩, ⟨⟨0⟩, 68, ⟨1⟩⟩)]

/-- The object map before the commit. -/
def mapBefore : ObjectMap := leafMap (childMappings.take 1) [0, 0, 16, 0]

/-- The object map after the commit. -/
def mapAfter : ObjectMap := leafMap childMappings [0, 0, 32, 0, 16, 0, 16, 0]

/-- A tree whose root is one of transaction 1 and names object 5 as its only child. -/
def oldRoot : Tree where
  root :=
    { block := ⟨⟨2⟩, ⟨(List.replicate (Layout.size NodeHeader) (0 : UInt8) ++
        [0, 0, 1, 0, 8, 0, 8, 0] ++ [97] ++ [5, 0, 0, 0, 0, 0, 0, 0] ++
        List.replicate (Layout.size TreeInfo) (0 : UInt8)).toArray⟩⟩
      header := { (default : NodeHeader) with
        object := { (default : ObjectHeader) with transaction := ⟨1⟩ }
        flags := .root
        level := 1
        keyCount := 1
        table := ⟨0, 8⟩ } }
  info := default

theorem holds_mapBefore : mapBefore.Holds (withFirstChild []).source (childMappings.take 1) where
  walk := ⟨(), (), trivial, by cbv⟩
  indexed := wellIndexed_of_isLeaf rfl
  ascending := List.pairwise_singleton ..

theorem holds_mapAfter (later : List UInt8) :
    mapAfter.Holds (withFirstChild later).source childMappings where
  walk := ⟨(), (), trivial, by cbv⟩
  indexed := wellIndexed_of_isLeaf rfl
  ascending := by
    unfold Ascending childMappings
    decide

/-- The mappings of transaction 1 are still there after the commit. -/
theorem sameUntil_childMappings : SameUntil ⟨1⟩ (childMappings.take 1) childMappings := by
  intro mapping hle
  refine ⟨List.mem_of_mem_take, fun hmem => ?_⟩
  rcases List.mem_pair.mp hmem with rfl | rfl
  · exact List.mem_cons_self
  · exact absurd hle (by decide)

set_option maxRecDepth 4000 in
theorem read_firstChild :
    (withFirstChild []).read ⟨0⟩ = (withFirstChild (.replicate 68 0)).read ⟨0⟩ := by
  cbv

set_option maxRecDepth 4000 in
theorem search_oldRoot_before :
    outcome (oldRoot.search (withFirstChild []).reader
      (mapBefore.latest? (withFirstChild []).reader) (firstByteOrder 97) .exact) ()
      = .ok (some ⟨⟨#[97]⟩, .empty⟩) := by
  cbv

/-- After the commit, the old root still leads to the old child, also through a resolver. -/
theorem search_oldRoot :
    outcome (oldRoot.search ((withFirstChild (.replicate 68 0)).reader.extend AddressCache)
      (Resolver.lookup ⟨mapAfter, true⟩ (withFirstChild (.replicate 68 0)).reader)
      (firstByteOrder 97) .exact) ((), ∅) = .ok (some ⟨⟨#[97]⟩, .empty⟩) := by
  have hblocks : SameBlocks ⟨1⟩ (withFirstChild []).source
      (withFirstChild (.replicate 68 0)).source (childMappings.take 1) := by
    intro mapping hmem _ _ s s' _ _
    rw [List.mem_singleton.mp hmem]
    show outcome (lift ((withFirstChild []).read ⟨0⟩)) s
      = outcome (lift ((withFirstChild (.replicate 68 0)).read ⟨0⟩)) s'
    rw [outcome_lift, outcome_lift, read_firstChild]
  rw [← search_oldRoot_before]
  exact ((search_walk_of_sameUntil holds_mapBefore (holds_mapAfter _) sameUntil_childMappings
    hblocks (BlockSource.withMap_uses _ _) (BlockSource.withResolver_uses _ _ true) rfl
    (UInt64.le_refl 1) trivial (Resolver.valid_empty _ _ trivial)).1 _ _).symm

end Apfs
