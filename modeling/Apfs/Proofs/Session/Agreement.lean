import Apfs.Proofs.Block.Cache
import Apfs.Proofs.ObjectMap.Resolver
import Apfs.Proofs.Session.Basic

namespace Apfs

/-!
# Agreement of sessions

Two sessions that are asked for the same show and answer the same, if the blocks that they read
agree.  Blocks that are kept and mappings that are remembered may differ: all that the resolvers
of the two sessions share is their object maps.

* `OpenResolver.Right` — all that a resolver remembers is what its object map gives, and was found
  before; `Session.right_answered` — this stays so.
* `Session.Related` — two sessions with right resolvers for the same object maps.
* `Session.outcome_ask` — a resolver answers what its object map does.
* `agreeUpTo_perform`, `related_serveAll` — one request, and many.
* `Settings.source` — the blocks of a device, with the cache that the settings ask for.
-/

variable {σ τ α : Type}

/-! ### Related states -/

/-- The object map gives a live mapping for the key. -/
def OpenResolver.Finds (B : BlockSource σ) (o : OpenResolver) (key : ObjectMapKey)
    (mapping : ObjectMapKey × ObjectMapValue) : Prop :=
  ∃ s, B.Valid s ∧
    outcome (o.resolver.map.latest? B.reader key.object key.transaction) s = .ok (some mapping)

/-- All mappings that are remembered are those that the object map gives, and they were found
    before. -/
structure OpenResolver.Right (B : BlockSource σ) (o : OpenResolver) : Prop where
  /-- What is remembered was found before, and the object map gives it. -/
  remembered : ∀ (key : ObjectMapKey) mapping, o.cache[key]? = some mapping →
    key ∈ o.found ∧ o.Finds B key mapping
  /-- For what was found, the object map gives a live mapping. -/
  live : ∀ key ∈ o.found, ∃ mapping, o.Finds B key mapping

namespace OpenResolver.Right

variable {B : BlockSource σ} {o : OpenResolver}

theorem valid (h : o.Right B) {s : σ} (hs : B.Valid s) : o.resolver.Valid B (s, o.cache) :=
  ⟨hs, fun key mapping hget => (h.remembered key mapping hget).2⟩

/-- A resolver that was just opened remembers nothing. -/
theorem opened (B : BlockSource σ) (r : Resolver) : OpenResolver.Right B ⟨r, ∅, []⟩ where
  remembered key mapping h := by
    rw [Std.HashMap.getElem?_empty] at h
    cases h
  live _ h := absurd h List.not_mem_nil

end OpenResolver.Right

namespace Session

/-- The state of the reader is valid, and all that resolvers remember is right. -/
def Valid (B : BlockSource σ) (p : Session σ) : Prop :=
  B.Valid p.1 ∧ ∀ o ∈ p.2, o.Right B

/-- The object maps of the resolvers that were opened. -/
def maps (p : Session σ) : List ObjectMap := p.2.map fun o => o.resolver.map

/-- Both sessions are valid, and their resolvers have the same object maps. -/
def Related (B : BlockSource σ) (B' : BlockSource τ) (p : Session σ) (q : Session τ) : Prop :=
  p.Valid B ∧ q.Valid B' ∧ p.maps = q.maps

/-- Sessions that start in valid states are related. -/
theorem related_start {B : BlockSource σ} {B' : BlockSource τ} {s : σ} {t : τ} (hs : B.Valid s)
    (ht : B'.Valid t) : Related B B' (s, []) (t, []) :=
  ⟨⟨hs, fun _ h => absurd h List.not_mem_nil⟩, ⟨ht, fun _ h => absurd h List.not_mem_nil⟩, rfl⟩

/-! ### Resolvers -/

/-- The step answers for a resolver what `g` makes of the mapping that the object map gives for the
    key, and remembers nothing else. -/
def Serves (B : BlockSource σ) (key : ObjectMapKey) (g : ObjectMapKey × ObjectMapValue → α)
    (x : Resolver → EStateM Error (σ × AddressCache) (Option α)) : Prop :=
  ∀ r s cache, r.Valid B (s, cache) →
    outcome (x r) (s, cache)
      = (outcome (r.map.latest? B.reader key.object key.transaction) s).map (Option.map g) ∧
    B.Valid (after (x r) (s, cache)).1 ∧
    ∀ (k : ObjectMapKey) mapping, (after (x r) (s, cache)).2[k]? = some mapping →
      cache[k]? = some mapping ∨ k = key ∧
        outcome (r.map.latest? B.reader key.object key.transaction) s = .ok (some mapping)

theorem serves_lookup (B : BlockSource σ) (object : VirtualId) (transaction : TransactionId) :
    Serves B ⟨object, transaction⟩ id fun r => r.lookup B.reader object transaction := by
  intro r s cache hr
  obtain ⟨hout, hvalid, -⟩ := r.agree_lookup B object transaction ⟨hr, hr.1⟩
  refine ⟨?_, hvalid.1, fun k mapping => r.remembered_of_lookup⟩
  rw [hout, Option.map_id]
  cases outcome (r.map.latest? B.reader object transaction) s <;> rfl

theorem serves_resolve (B : BlockSource σ) (object : VirtualId) (transaction : TransactionId) :
    Serves B ⟨object, transaction⟩ (fun mapping => mapping.2.address) fun r =>
      r.resolve B.reader object transaction := by
  intro r s cache hr
  have hserves := serves_lookup B object transaction r s cache hr
  refine ⟨r.outcome_resolve B hr hr.1 object transaction, ?_⟩
  rw [r.after_resolve]
  exact hserves.2

section Asking

variable {B : BlockSource σ} {key : ObjectMapKey} {g : ObjectMapKey × ObjectMapValue → α}
  {x : Resolver → EStateM Error (σ × AddressCache) (Option α)}

/-- The resolver after an answer.  Its key is noted down if something was found. -/
def answered (key : ObjectMapKey) (x : Resolver → EStateM Error (σ × AddressCache) (Option α))
    (s : σ) (o : OpenResolver) : OpenResolver :=
  { o with
    cache := (after (x o.resolver) (s, o.cache)).2
    found := match outcome (x o.resolver) (s, o.cache) with
      | .ok (some _) => key :: o.found
      | _ => o.found }

/-- A resolver stays right whatever it is asked for. -/
theorem right_answered (hx : Serves B key g x) {s : σ} (hs : B.Valid s) {o : OpenResolver}
    (ho : o.Right B) : (answered key x s o).Right B := by
  obtain ⟨hout, -, hcache⟩ := hx o.resolver s o.cache (ho.valid hs)
  constructor
  · intro k mapping hk
    -- A mapping that is new in the cache was just found, so its key was noted down.
    rcases hcache k mapping hk with h | ⟨rfl, h⟩
    · obtain ⟨hfound, hfinds⟩ := ho.remembered k mapping h
      refine ⟨?_, hfinds⟩
      unfold answered
      dsimp only
      split
      · exact List.mem_cons_of_mem _ hfound
      · exact hfound
    · refine ⟨?_, s, hs, h⟩
      unfold answered
      rw [hout, h]
      exact List.mem_cons_self
  · intro k hk
    unfold answered at hk
    dsimp only at hk
    split at hk
    · next a hfound =>
      -- The key noted down is the one that was asked for, and the object map gave the answer.
      rcases List.mem_cons.mp hk with rfl | hk
      · rw [hout] at hfound
        rcases hlatest : outcome (o.resolver.map.latest? B.reader k.object k.transaction) s with
          e | _ | mapping
        all_goals rw [hlatest] at hfound
        · cases hfound
        · cases hfound
        · exact ⟨mapping, s, hs, hlatest⟩
      · exact ho.live k hk
    · exact ho.live k hk

/-- Replacing a resolver by one that is right keeps a session valid. -/
theorem valid_set {s s' : σ} {opened : List OpenResolver} (hp : Valid B (s, opened))
    (hs : B.Valid s') (index : Nat) {o : OpenResolver} (ho : o.Right B) :
    Valid B (s', opened.set index o) := by
  refine ⟨hs, fun o' ho' => ?_⟩
  rcases List.mem_or_eq_of_mem_set ho' with h | rfl
  · exact hp.2 o' h
  · exact ho

/-- Replacing a resolver by one with the same object map leaves the object maps as they are. -/
theorem maps_set {s s' : σ} {opened : List OpenResolver} {index : Nat} {o o' : OpenResolver}
    (ho : opened[index]? = some o) (hmap : o'.resolver.map = o.resolver.map) :
    maps (s', opened.set index o') = maps (s, opened) := by
  obtain ⟨hlt, rfl⟩ := List.getElem?_eq_some_iff.mp ho
  unfold maps
  rw [List.map_set, hmap, ← List.getElem_map (fun o : OpenResolver => o.resolver.map)]
  · exact List.set_getElem_self _
  · rwa [List.length_map]

/-- A resolver that was never opened finds nothing. -/
theorem ask_of_none {index : Nat} {s : σ} {opened : List OpenResolver}
    (h : opened[index]? = none) : ask index key x (s, opened) = .ok none (s, opened) := by
  unfold ask
  simp only [h]

/-- A resolver that was opened gives its answer. -/
theorem ask_of_some {index : Nat} {s : σ} {opened : List OpenResolver} {o : OpenResolver}
    (h : opened[index]? = some o) :
    outcome (ask index key x) (s, opened) = outcome (x o.resolver) (s, o.cache) ∧
      after (ask index key x) (s, opened)
        = ((after (x o.resolver) (s, o.cache)).1, opened.set index (answered key x s o)) := by
  unfold answered outcome after ask
  simp only [h]
  cases x o.resolver (s, o.cache) with
  | error e p => exact ⟨rfl, rfl⟩
  | ok found p => cases found <;> exact ⟨rfl, rfl⟩

/-- **A resolver answers** what its object map does, and a session stays valid. -/
theorem outcome_ask (hx : Serves B key g x) {p : Session σ} (hp : p.Valid B) (index : Nat) :
    outcome (ask index key x) p = (match p.maps[index]? with
      | none => .ok none
      | some m => (outcome (m.latest? B.reader key.object key.transaction) p.1).map
        (Option.map g)) ∧
      Valid B (after (ask index key x) p) ∧ maps (after (ask index key x) p) = p.maps := by
  obtain ⟨s, opened⟩ := p
  cases hget : opened[index]? with
  | none =>
    rw [maps, List.getElem?_map, hget, outcome, after, ask_of_none hget]
    exact ⟨rfl, hp, rfl⟩
  | some o =>
    have ho : o.Right B := hp.2 o (List.mem_of_getElem? hget)
    obtain ⟨hout, hvalid, -⟩ := hx o.resolver s o.cache (ho.valid hp.1)
    obtain ⟨haskout, haskafter⟩ := @ask_of_some _ _ key x _ s _ _ hget
    rw [haskout, haskafter, maps, List.getElem?_map, hget]
    exact ⟨hout, valid_set hp hvalid index (right_answered hx hp.1 ho), maps_set hget rfl⟩

end Asking

/-! ### Agreement of steps -/

section

variable {E : Error → Error → Prop} {B : BlockSource σ} {B' : BlockSource τ}

/-- Steps of the readers agree in related sessions. -/
theorem agreeUpTo_onFirst {x : EStateM Error σ α} {y : EStateM Error τ α}
    (h : AgreeUpTo E (fun s t => B.Valid s ∧ B'.Valid t) x y) :
    AgreeUpTo E (Related B B') (onFirst x) (onFirst y) := by
  rintro ⟨s, opened⟩ ⟨t, opened'⟩ ⟨⟨hs, hright⟩, ⟨ht, hright'⟩, hmaps⟩
  obtain ⟨hout, hs', ht'⟩ := h ⟨hs, ht⟩
  rw [outcome_onFirst, outcome_onFirst, after_onFirst, after_onFirst]
  exact ⟨hout, ⟨hs', hright⟩, ⟨ht', hright'⟩, hmaps⟩

variable (hverified : B.AlikeVerified E B')

include hverified

theorem agreeUpTo_readVerified (address : BlockAddress) :
    AgreeUpTo E (Related B B') ((Session.reader B.reader).readVerified address)
      ((Session.reader B'.reader).readVerified address) := by
  rw [readVerified_extend, readVerified_extend]
  exact agreeUpTo_onFirst (hverified address)

variable [Std.Refl E]

/-- Resolvers agree where their object maps do. -/
theorem agreeUpTo_ask {key : ObjectMapKey} {g : ObjectMapKey × ObjectMapValue → α}
    {x : Resolver → EStateM Error (σ × AddressCache) (Option α)}
    {y : Resolver → EStateM Error (τ × AddressCache) (Option α)} (hx : Serves B key g x)
    (hy : Serves B' key g y) (index : Nat) :
    AgreeUpTo E (Related B B') (ask index key x) (ask index key y) := by
  rintro p q ⟨hp, hq, hmaps⟩
  obtain ⟨hpout, hpvalid, hpmaps⟩ := outcome_ask hx hp index
  obtain ⟨hqout, hqvalid, hqmaps⟩ := outcome_ask hy hq index
  refine ⟨?_, hpvalid, hqvalid, hpmaps.trans (hmaps.trans hqmaps.symm)⟩
  rw [hpout, hqout, hmaps]
  cases q.maps[index]? with
  | none => exact .ok none
  | some m => exact (agreeUpTo_latest? hverified m _ _ ⟨hp.1, hq.1⟩).1.map _

/-- Lookups agree, wherever objects are looked up. -/
theorem agreeUpTo_lookup (objects : Objects) (object : VirtualId) (transaction : TransactionId) :
    AgreeUpTo E (Related B B') (objects.lookup B.reader object transaction)
      (objects.lookup B'.reader object transaction) := by
  cases objects with
  | none => exact .pure _
  | map m => exact agreeUpTo_latest? (agreeUpTo_readVerified hverified) m object transaction
  | resolver index =>
    exact agreeUpTo_ask hverified (serves_lookup B object transaction)
      (serves_lookup B' object transaction) index

/-- The blocks of the children of a tree agree. -/
theorem agreeUpTo_treeBlock (t : Tree) (objects : Objects) (id : ObjectId) :
    AgreeUpTo E (Related B B')
      (t.childBlock (Session.reader B.reader) (objects.lookup B.reader) id)
      (t.childBlock (Session.reader B'.reader) (objects.lookup B'.reader) id) :=
  agreeUpTo_childBlock (agreeUpTo_readVerified hverified) (agreeUpTo_lookup hverified objects) id

/-- Walks over the entries of a tree agree. -/
theorem agreeUpTo_walk (t : Tree) (objects : Objects) (accept : List Shown → Except Error Unit) :
    AgreeUpTo E (Beside (Related B B') Eq) (Session.walk B.reader t objects accept)
      (Session.walk B'.reader t objects accept) := by
  refine agreeUpTo_walkFrom (fun id => ?_) (fun e => .of_agree (agree_judge accept _)) _ _
  rw [childBlock_extend, childBlock_extend]
  exact (agreeUpTo_treeBlock hverified t objects id).onFirst

/-- Walks over the mappings of an object map agree. -/
theorem agreeUpTo_mappings (objects : Objects) (accept : List Shown → Except Error Unit) :
    AgreeUpTo E (Beside (Related B B') Eq) (Session.mappings B.reader objects accept)
      (Session.mappings B'.reader objects accept) := by
  refine .get_bind fun p q hpq => ?_
  have hmap : objects.map? p.1.2 = objects.map? q.1.2 := by
    cases objects with
    | none => rfl
    | map m => rfl
    | resolver index =>
      have hmaps : p.1.maps[index]? = q.1.maps[index]? := by rw [hpq.1.2.2]
      rwa [maps, maps, List.getElem?_map, List.getElem?_map] at hmaps
  dsimp only
  rw [hmap]
  cases objects.map? q.1.2 with
  | none => exact .pure _
  | some m =>
    refine Apfs.agreeUpTo_mappings (fun address => ?_) m fun _ _ => .of_agree (agree_judge accept _)
    simp only [readVerified_extend]
    exact (agreeUpTo_onFirst (hverified address)).onFirst

/-- Opening a tree agrees, if its root is verified or all readings agree. -/
theorem agreeUpTo_openTree (address : BlockAddress) {verified : Bool}
    (hread : verified = true ∨ B.Alike E B') :
    AgreeUpTo E (Related B B') (Session.openTree B.reader address verified)
      (Session.openTree B'.reader address verified) := by
  cases verified with
  | true => exact (agreeUpTo_readVerified hverified address).bind fun block => .lift _
  | false =>
    have hread := hread.resolve_left Bool.false_ne_true
    have hblock : AgreeUpTo E (Related B B') ((Session.reader B.reader).readBlock address)
        ((Session.reader B'.reader).readBlock address) :=
      agreeUpTo_readBlock (agreeUpTo_onFirst (hread address))
    exact hblock.bind fun block => .lift _

/-- Opening a resolver agrees, whether or not the resolvers remember mappings. -/
theorem agreeUpTo_openResolver (s s' : Settings) (address : BlockAddress) :
    AgreeUpTo E (Related B B') (s.openResolver B.reader address)
      (s'.openResolver B'.reader address) := by
  unfold Settings.openResolver Settings.resolver
  rw [resolver_ofAddress_eq, resolver_ofAddress_eq, bind_assoc, bind_assoc]
  refine (agreeUpTo_ofAddress (agreeUpTo_readVerified hverified) address).bind fun m => ?_
  -- Both sessions get one more resolver, for the same object map and with nothing remembered.
  rintro ⟨state, opened⟩ ⟨state', opened'⟩ ⟨hp, hq, hmaps⟩
  refine ⟨.ok m, ⟨hp.1, ?_⟩, ⟨hq.1, ?_⟩, ?_⟩
  · exact List.forall_mem_append.mpr ⟨hp.2, List.forall_mem_singleton.mpr (.opened B _)⟩
  · exact List.forall_mem_append.mpr ⟨hq.2, List.forall_mem_singleton.mpr (.opened B' _)⟩
  · show (opened ++ [_]).map _ = (opened' ++ [_]).map _
    rw [List.map_append, List.map_append]
    exact congrArg (· ++ [m]) hmaps

/-- Looking a directory entry up agrees, if both sessions treat case alike. -/
theorem agreeUpTo_lookupEntry {s s' : Settings} (hs : s.sensitivity = s'.sensitivity) (t : Tree)
    (objects : Objects) (format : EntryFormat) (parent : UInt64) (name : EncodedName) :
    AgreeUpTo E (Related B B')
      (s.lookupEntry t (Session.reader B.reader) (objects.lookup B.reader) format parent name)
      (s'.lookupEntry t (Session.reader B'.reader) (objects.lookup B'.reader) format parent
        name) := by
  unfold Settings.lookupEntry Tree.lookupEntry
  rw [hs]
  refine (AgreeUpTo.lift _).bind fun query => ?_
  have hblock := agreeUpTo_treeBlock hverified t objects
  refine (agreeUpTo_searchFrom hblock _ _ _ _).bind fun found => ?_
  cases found with
  | none => exact .pure _
  | some entry => exact (AgreeUpTo.lift _).bind fun _ => .pure _

end

/-- Reading into a buffer of the caller, and showing what it holds in the end. -/
theorem readInto_eq (reader : BlockReader σ) (address : BlockAddress) (buffer : ByteArray)
    (session : Session σ) (shown : List Shown) :
    outcome (Session.readInto reader address buffer) (session, shown)
        = outcome ((Session.reader reader).readInto address) (session, buffer) ∧
      after (Session.readInto reader address buffer) (session, shown)
        = ((after ((Session.reader reader).readInto address) (session, buffer)).1,
          shown ++
            [.buffer (after ((Session.reader reader).readInto address) (session, buffer)).2]) := by
  unfold outcome after Session.readInto
  dsimp only
  cases (Session.reader reader).readInto address (session, buffer) <;> exact ⟨rfl, rfl⟩

/-- Reading into a buffer of the caller agrees where readings do, also in what the buffer holds
    after a failure. -/
theorem agreeUpTo_readInto {E : Error → Error → Prop} {B : BlockSource σ} {B' : BlockSource τ}
    (hread : B.Alike E B') (address : BlockAddress) (buffer : ByteArray) :
    AgreeUpTo E (Beside (Related B B') Eq) (Session.readInto B.reader address buffer)
      (Session.readInto B'.reader address buffer) := by
  have hinto : AgreeUpTo E (Beside (Related B B') Eq) ((Session.reader B.reader).readInto address)
      ((Session.reader B'.reader).readInto address) := by
    refine (agreeUpTo_onFirst (hread address)).onFirst.bind fun data => ?_
    -- The bytes that were read replace whatever the buffers held.
    rintro p q ⟨hpq, -⟩
    exact ⟨.ok (), hpq, rfl⟩
  rintro ⟨session, shown⟩ ⟨session', shown'⟩ ⟨hpq, rfl⟩
  have hbuffer : Beside (Related B B') Eq (session, buffer) (session', buffer) := ⟨hpq, rfl⟩
  obtain ⟨hout, hrelated, hdata⟩ := hinto hbuffer
  rw [(readInto_eq ..).1, (readInto_eq ..).1, (readInto_eq ..).2, (readInto_eq ..).2, hdata]
  exact ⟨hout, hrelated, rfl⟩

end Session

/-! ### Agreement of requests -/

/-- Every block that the request reads is verified before anything in it counts. -/
def Request.Verifies : Request → Prop
  | .readBlock _ | .readData _ | .readInto _ _ => False
  | .openTree _ verified => verified = true
  | _ => True

/-- The same is shown, and the results are the same up to `E`. -/
def Response.SameUpTo (E : Error → Error → Prop) (a b : Response) : Prop :=
  a.shown = b.shown ∧ Apfs.SameUpTo E a.result b.result

section

variable {E : Error → Error → Prop} [Std.Refl E] {B : BlockSource σ} {B' : BlockSource τ}
  {s s' : Settings}

/-- **Requests agree** where verified readings do, if the requests verify what they read or all
    readings agree.  There is one case for each kind of request. -/
theorem agreeUpTo_perform (hs : s.sensitivity = s'.sensitivity)
    (hverified : B.AlikeVerified E B') {request : Request}
    (hread : request.Verifies ∨ B.Alike E B') :
    AgreeUpTo E (Beside (Session.Related B B') Eq) (s.perform B.reader request)
      (s'.perform B'.reader request) := by
  cases request with
  | readBlock address =>
    have hread := hread.resolve_left id
    refine (AgreeUpTo.onFirst ?_).map _
    exact agreeUpTo_readBlock (Session.agreeUpTo_onFirst (hread address))
  | readVerified address =>
    exact (Session.agreeUpTo_readVerified hverified address).onFirst.map _
  | readData address =>
    have hread := hread.resolve_left id
    exact (Session.agreeUpTo_onFirst (hread address)).onFirst.map _
  | readInto address buffer =>
    exact (Session.agreeUpTo_readInto (hread.resolve_left id) address buffer).map _
  | openMap block =>
    refine (AgreeUpTo.onFirst ?_).map _
    exact agreeUpTo_ofBlock (Session.agreeUpTo_readVerified hverified) block
  | openResolver address =>
    exact (Session.agreeUpTo_openResolver hverified s s' address).onFirst.map _
  | openTree address verified =>
    exact (Session.agreeUpTo_openTree hverified address hread).onFirst.map _
  | resolve index object transaction =>
    exact (Session.agreeUpTo_ask hverified (Session.serves_resolve B object transaction)
      (Session.serves_resolve B' object transaction) index).onFirst.map _
  | latest objects object transaction =>
    exact (Session.agreeUpTo_lookup hverified objects object transaction).onFirst.map _
  | mappings objects accept => exact (Session.agreeUpTo_mappings hverified objects accept).map _
  | search t objects order mode =>
    refine (AgreeUpTo.onFirst ?_).map _
    exact agreeUpTo_searchFrom (Session.agreeUpTo_treeBlock hverified t objects) _ _ _ _
  | walk t objects accept => exact (Session.agreeUpTo_walk hverified t objects accept).map _
  | lookupEntry t objects format parent name =>
    exact (Session.agreeUpTo_lookupEntry hverified hs t objects format parent name).onFirst.map _

theorem serve_eq (reader : BlockReader σ) (request : Request) (session : Session σ) :
    s.serve reader request session
      = (⟨(after (s.perform reader request) (session, [])).2,
          outcome (s.perform reader request) (session, [])⟩,
        (after (s.perform reader request) (session, [])).1) := by
  unfold Settings.serve outcome after
  cases s.perform reader request (session, []) <;> rfl

/-- **Sessions agree** where verified readings do, whatever they are asked for, if the requests
    verify what they read or all readings agree.  By induction on the requests, with sessions that
    stay related. -/
theorem related_serveAll (hs : s.sensitivity = s'.sensitivity)
    (hverified : B.AlikeVerified E B') {requests : List Request}
    (hread : (∀ request ∈ requests, request.Verifies) ∨ B.Alike E B') {p : Session σ}
    {q : Session τ} (hpq : Session.Related B B' p q) :
    List.Forall₂ (Response.SameUpTo E) (s.serveAll B.reader requests p).1
        (s'.serveAll B'.reader requests q).1 ∧
      Session.Related B B' (s.serveAll B.reader requests p).2
        (s'.serveAll B'.reader requests q).2 := by
  induction requests generalizing p q with
  | nil => exact ⟨.nil, hpq⟩
  | cons request rest ih =>
    have hfirst := hread.imp_left fun h => h request List.mem_cons_self
    have hrest := hread.imp_left fun h r hr => h r (List.mem_cons_of_mem _ hr)
    have hstart : Beside (Session.Related B B') Eq (p, ([] : List Shown)) (q, []) := ⟨hpq, rfl⟩
    obtain ⟨hresult, hrelated, hshown⟩ := agreeUpTo_perform hs hverified hfirst hstart
    unfold Settings.serveAll
    rw [serve_eq, serve_eq]
    obtain ⟨hresponses, hend⟩ := ih hrest hrelated
    exact ⟨.cons ⟨hshown, hresult⟩ hresponses, hend⟩

end

/-! ### Sessions on devices -/

/-- The blocks of a device, with the cache that the settings ask for. -/
def Settings.source (s : Settings) (d : Device) : BlockSource (Unit × BlockCache) :=
  d.source.cached (if s.keepsBlocks then s.blockCapacity else some 0)

/-- Sessions on devices start in related states. -/
theorem related_devices (s s' : Settings) (d d' : Device) :
    Session.Related (s.source d) (s'.source d') (((), .empty), []) (((), .empty), []) :=
  Session.related_start (d.source.valid_cached_empty trivial) (d'.source.valid_cached_empty trivial)

end Apfs
