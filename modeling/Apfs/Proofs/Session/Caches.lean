import Apfs.Proofs.Block.CacheOrder
import Apfs.Proofs.ObjectMap.Versions
import Apfs.Proofs.ObjectMap.WrittenMap
import Apfs.Proofs.Session.Agreement

namespace Apfs

/-!
# Caches make no difference

Two sessions on one image that differ only in what they keep show and answer the same, request for
request, and all that their resolvers remember is what the object maps say without any cache.

* `OpenResolver.Right.of_cached` — what is right about cached blocks is right about the blocks.
* `serve_openResolver`, `serve_resolve`, `serve_readBlock` — what some requests give and leave
  behind; `exists_serveAll` — a session of such requests.
* `run_caches` — sessions on one image, whatever they keep.
-/

variable {σ : Type}

/-- What an object map gives of cached blocks, it gives of the blocks themselves. -/
theorem OpenResolver.Finds.of_cached {B : BlockSource σ} {capacity : Option Nat}
    {o : OpenResolver} {key : ObjectMapKey} {mapping : ObjectMapKey × ObjectMapValue}
    (h : o.Finds (B.cached capacity) key mapping) : o.Finds B key mapping := by
  obtain ⟨p, hp, hmapping⟩ := h
  have hagree := agree_of_agreeUpTo (agreeUpTo_latest?
    (fun a => .of_agree (B.agree_readVerified_cached capacity a)) o.resolver.map key.object
    key.transaction)
  exact ⟨p.1, hp.1, (hagree ⟨hp, hp.1⟩).1.symm.trans hmapping⟩

/-- What is right about the blocks that a cache gives is right about the blocks themselves. -/
theorem OpenResolver.Right.of_cached {B : BlockSource σ} {capacity : Option Nat}
    {o : OpenResolver} (h : o.Right (B.cached capacity)) : o.Right B where
  remembered key mapping hget :=
    ⟨(h.remembered key mapping hget).1, (h.remembered key mapping hget).2.of_cached⟩
  live key hkey := (h.live key hkey).imp fun _ hfinds => hfinds.of_cached

/-- A source is like itself. -/
theorem BlockSource.alike_self (B : BlockSource σ) : B.Alike Eq B :=
  fun address => .of_agree (B.steady_read address)

/-- Responses that are the same up to equality of errors are equal. -/
theorem Response.SameUpTo.eq {a b : Response} (h : a.SameUpTo Eq b) : a = b := by
  obtain ⟨hshown, hresult⟩ := h
  cases a
  cases b
  cases hshown
  cases hresult.eq
  rfl

/-! ### Single requests -/

section

variable {α : Type} {s : Settings} {reader : BlockReader σ} {request : Request}
  {address : BlockAddress}

/-- A request that is one step on the session gives what that step does. -/
theorem serve_of_ok {x : EStateM Error (Session σ) α} {g : α → Answer} {a : α} {p p' : Session σ}
    (hperform : s.perform reader request = g <$> onFirst x) (h : x p = .ok a p') :
    s.serve reader request p = (⟨[], .ok (g a)⟩, p') := by
  have hstep : s.perform reader request (p, []) = .ok (g a) (p', []) := by
    rw [hperform, ← bind_pure_comp, bind_eq_ok_iff]
    refine ⟨a, (p', []), ?_, rfl⟩
    rw [onFirst, h]
  rw [Settings.serve, hstep]

/-- A resolver that is opened goes behind the others, and remembers nothing. -/
theorem serve_openResolver {r r' : σ} {m : ObjectMap} (opened : List OpenResolver)
    (h : ObjectMap.ofAddress reader address r = .ok m r') :
    s.serve reader (.openResolver address) (r, opened)
      = (⟨[], .ok (.map m)⟩, (r', opened ++ [⟨⟨m, s.keepsAddresses⟩, ∅, []⟩])) := by
  refine serve_of_ok (g := .map) rfl ?_
  unfold Settings.openResolver Settings.resolver
  rw [resolver_ofAddress_eq, ofAddress_extend, bind_assoc, bind_eq_ok_iff]
  refine ⟨m, (r', opened), ?_, rfl⟩
  rw [onFirst, h]

/-- A block that is read changes the state of the reader only. -/
theorem serve_readBlock {r r' : σ} {data : ByteArray} (opened : List OpenResolver)
    (h : reader.read address r = .ok data r') :
    s.serve reader (.readBlock address) (r, opened)
      = (⟨[], .ok (.block ⟨address, data⟩)⟩, (r', opened)) := by
  refine serve_of_ok (g := .block) rfl ?_
  rw [BlockReader.readBlock, bind_eq_ok_iff]
  refine ⟨data, (r', opened), ?_, rfl⟩
  show onFirst (reader.read address) (r, opened) = _
  rw [onFirst, h]

/-- **A resolver that is asked for an object** that its object map has gives its block, and then
    remembers the mapping, if it remembers any. -/
theorem serve_resolve {B : BlockSource σ} {r : σ} {opened : List OpenResolver} {index : Nat}
    {o : OpenResolver} {object : VirtualId} {transaction : TransactionId}
    {mapping : ObjectMapKey × ObjectMapValue} (hr : B.Valid r) (hindex : opened[index]? = some o)
    (ho : o.Right B)
    (hlatest : outcome (o.resolver.map.latest? B.reader object transaction) r
      = .ok (some mapping)) :
    ∃ r' o', s.serve B.reader (.resolve index object transaction) (r, opened)
        = (⟨[], .ok (.address (some mapping.2.address))⟩, (r', opened.set index o')) ∧
      B.Valid r' ∧ o'.Right B ∧ o'.resolver = o.resolver ∧
      o'.found = ⟨object, transaction⟩ :: o.found ∧
      (o.resolver.remembers = true →
        o'.cache[(⟨object, transaction⟩ : ObjectMapKey)]? = some mapping) := by
  let key : ObjectMapKey := ⟨object, transaction⟩
  let x (resolver : Resolver) := resolver.resolve B.reader object transaction
  have hserves : Session.Serves B key (fun mapping => mapping.2.address) x :=
    Session.serves_resolve B object transaction
  obtain ⟨hout, hvalid, -⟩ := hserves o.resolver r o.cache (ho.valid hr)
  obtain ⟨hlookup, -⟩ :=
    Session.serves_lookup B object transaction o.resolver r o.cache (ho.valid hr)
  rw [hlatest] at hout hlookup
  obtain ⟨hask, hafter⟩ := @Session.ask_of_some _ _ key x _ r _ _ hindex
  refine ⟨_, Session.answered key x r o,
    serve_of_ok (g := .address) rfl (eq_ok_iff.mpr ⟨hask.trans hout, hafter⟩), hvalid,
    Session.right_answered hserves hr ho, rfl, ?_, fun hremembers => ?_⟩
  · unfold Session.answered
    rw [hout]
    rfl
  · show (after (o.resolver.resolve B.reader object transaction) (r, o.cache)).2[key]? = _
    rw [Resolver.after_resolve]
    exact o.resolver.remembers_of_lookup hremembers hlookup

/-- A session that resolves an object twice and then reads a block. -/
theorem exists_serveAll {B : BlockSource σ} {r : σ} {m : ObjectMap} {object : VirtualId}
    {transaction : TransactionId} {mapping : ObjectMapKey × ObjectMapValue} {data : ByteArray}
    {last : BlockAddress} (hopen : outcome (ObjectMap.ofAddress B.reader address) r = .ok m)
    (hopened : B.Valid (after (ObjectMap.ofAddress B.reader address) r))
    (hlatest : ∀ r, B.Valid r →
      outcome (m.latest? B.reader object transaction) r = .ok (some mapping))
    (hread : ∀ r, B.Valid r → outcome (B.reader.read last) r = .ok data) :
    ∃ r' o, B.Valid r' ∧
      s.serveAll B.reader [.openResolver address, .resolve 0 object transaction,
          .resolve 0 object transaction, .readBlock last] (r, [])
        = ([⟨[], .ok (.map m)⟩, ⟨[], .ok (.address (some mapping.2.address))⟩,
            ⟨[], .ok (.address (some mapping.2.address))⟩, ⟨[], .ok (.block ⟨last, data⟩)⟩],
          (after (B.reader.read last) r', [o])) ∧
      o.found = [⟨object, transaction⟩, ⟨object, transaction⟩] ∧
      (s.keepsAddresses = true →
        o.cache[(⟨object, transaction⟩ : ObjectMapKey)]? = some mapping) := by
  have hserve₁ := serve_openResolver (s := s) [] (eq_ok_iff.mpr ⟨hopen, rfl⟩)
  let o₁ : OpenResolver := ⟨⟨m, s.keepsAddresses⟩, ∅, []⟩
  have hget (o : OpenResolver) : [o][0]? = some o := rfl
  obtain ⟨r₂, o₂, hserve₂, hr₂, ho₂, hresolver₂, hfound₂, -⟩ :=
    serve_resolve (s := s) hopened (hget o₁) (.opened B _) (hlatest _ hopened)
  have hlatest₂ : outcome (o₂.resolver.map.latest? B.reader object transaction) r₂
      = .ok (some mapping) := by
    rw [hresolver₂]
    exact hlatest _ hr₂
  obtain ⟨r₃, o₃, hserve₃, hr₃, -, -, hfound₃, hremembered⟩ :=
    serve_resolve (s := s) hr₂ (hget o₂) ho₂ hlatest₂
  have hserve₄ := serve_readBlock (s := s) [o₃] (eq_ok_iff.mpr ⟨hread _ hr₃, rfl⟩)
  refine ⟨r₃, o₃, hr₃, ?_, hfound₃.trans (congrArg _ hfound₂), fun hkeeps => hremembered ?_⟩
  · simp only [Settings.serveAll]
    rw [hserve₁]
    dsimp only
    rw [List.nil_append, hserve₂]
    dsimp only
    rw [List.set_cons_zero, hserve₃]
    dsimp only
    rw [List.set_cons_zero, hserve₄]
  · rw [hresolver₂]
    exact hkeeps

end

/-- **Caches make no difference.**  Whatever blocks and mappings are kept, either an image cannot be
    opened for the same reason, or any requests get the same responses.  All mappings that are
    remembered in the end are those that the object maps give without a cache, and they were found
    before. -/
theorem run_caches (s : Settings) (keepsBlocks : Bool) (blockCapacity : Option Nat)
    (keepsAddresses : Bool) (image : ByteArray) (start : UInt64) (requests : List Request) :
    let s' := { s with keepsBlocks, blockCapacity, keepsAddresses }
    (∃ e, s.run image start requests = .error e ∧ s'.run image start requests = .error e) ∨
      ∃ device responses session session', s.device image start = .ok device ∧
        s.run image start requests = .ok (responses, session) ∧
        s'.run image start requests = .ok (responses, session') ∧
        (∀ o ∈ session.2, o.Right device.source) ∧ ∀ o ∈ session'.2, o.Right device.source := by
  intro s'
  have hdevice : s'.device image start = s.device image start := rfl
  unfold Settings.run
  rw [hdevice]
  cases s.device image start with
  | error e => exact .inl ⟨e, rfl, rfl⟩
  | ok device =>
    -- With either cache, what is read are the blocks of the one device.
    have halike : (s.source device).Alike Eq (s'.source device) :=
      device.source.alike_self.cached _ _
    have hs : s.sensitivity = s'.sensitivity := rfl
    obtain ⟨hresponses, hright, hright', -⟩ :=
      related_serveAll hs halike.verified (.inr halike) (related_devices s s' device device)
    refine .inr ⟨device, _, _, _, rfl, rfl, ?_, fun o ho => (hright.2 o ho).of_cached,
      fun o ho => (hright'.2 o ho).of_cached⟩
    have heq := hresponses.imp fun _ _ h => h.eq
    rw [List.forall₂_eq_eq_eq] at heq
    exact congrArg (fun responses => Except.ok (responses, _)) heq.symm

/-- An object map with two versions of object 5 is opened and asked for the object twice, and then
    its own block is read again.  With room for one block, the other blocks of the map had to go
    for it, and the mapping that was found is remembered.  Without any caches, the responses are
    the same. -/
theorem run_caches_twoVersions :
    let kept : Settings := { blockCapacity := some 1 }
    let unkept : Settings :=
      { keepsBlocks := false, blockCapacity := none, keepsAddresses := false }
    let requests : List Request :=
      [.openResolver ⟨0⟩, .resolve 0 ⟨5⟩ ⟨2⟩, .resolve 0 ⟨5⟩ ⟨2⟩, .readBlock ⟨0⟩]
    let key : ObjectMapKey := ⟨⟨5⟩, ⟨2⟩⟩
    ∃ blocks m data session session',
      let image := Bytes.joined blocks
      let responses : List Response :=
        [⟨[], .ok (.map m)⟩, ⟨[], .ok (.address (some ⟨100⟩))⟩,
          ⟨[], .ok (.address (some ⟨100⟩))⟩, ⟨[], .ok (.block ⟨⟨0⟩, data⟩)⟩]
      writeMap 4096 versionLeaves = .ok blocks ∧
        kept.run image 0 requests = .ok (responses, session) ∧
        unkept.run image 0 requests = .ok (responses, session') ∧
        session.1.2.order = [⟨0⟩] ∧
        ∃ o, session.2 = [o] ∧ o.found = [key, key] ∧ o.cache[key]? = some firstVersion := by
  intro kept unkept requests key
  have hfits : ∀ c ∈ treeContents .objectMap 1 versionLeaves, c.requiredSize ≤ 4096 := by
    decide +kernel
  obtain ⟨blocks, m, hwrite, -, hopens⟩ :=
    exists_writeMap hfits (by decide) (by decide) (by decide)
  obtain ⟨d, hd⟩ : ∃ d, Device.ofImage (Bytes.joined blocks) 0 4096 = .ok d :=
    ⟨_, if_neg (by decide)⟩
  obtain ⟨⟨data, hdata⟩, hopen, hleaves⟩ := hopens d hd
  have hindexed := hleaves.wellIndexed
    (forall₂_indexEntries (decode : ByteArray → Except Error ObjectMapKey) (by decide))
  obtain ⟨seen, hsees, hlatest⟩ := exists_sees_latest? hleaves.spans decodes_versionLeaves hindexed
    ascending_twoVersions ⟨5⟩ ⟨2⟩
  obtain rfl := eq_of_sees_twoVersions hsees
  -- What the blocks give without a cache, they give with one that has room for one of them.
  let B := d.source.bounded (some 1)
  have halike : B.Alike Eq d.source := d.source.alike_bounded (some 1)
  have hstart : B.Valid ((), .empty) :=
    ⟨d.source.valid_cached_empty trivial, BlockCache.bounded_empty _⟩
  obtain ⟨hsame, hopened, -⟩ := agreeUpTo_ofAddress halike.verified ⟨0⟩ ⟨hstart, trivial⟩
  have hfinds (r : Unit × BlockCache) (hr : B.Valid r) :
      outcome (m.latest? B.reader ⟨5⟩ ⟨2⟩) r = .ok (some firstVersion) :=
    (agreeUpTo_latest? halike.verified m ⟨5⟩ ⟨2⟩ ⟨hr, trivial⟩).1.eq.trans (hlatest () trivial)
  have hread (r : Unit × BlockCache) (hr : B.Valid r) : outcome (B.reader.read ⟨0⟩) r = .ok data :=
    (@halike ⟨0⟩ r () ⟨hr, trivial⟩).1.eq.trans ((outcome_lift ..).trans hdata)
  obtain ⟨r, o, hr, hserved, hfound, hremembered⟩ :=
    exists_serveAll (s := kept) (hsame.eq.trans hopen) hopened hfinds hread
  have hrun : kept.run (Bytes.joined blocks) 0 requests = .ok (_, _) :=
    sequence_eq_ok_iff.mpr ⟨d, hd, congrArg Except.ok hserved⟩
  rcases run_caches kept false none false (Bytes.joined blocks) 0 requests with
    ⟨e, hfails, -⟩ | ⟨_, _, _, session', -, hkept, hunkept, -⟩
  · rw [hrun] at hfails
    cases hfails
  · rw [hrun] at hkept
    cases hkept
    exact ⟨blocks, m, data, _, session', hwrite, hrun, hunkept,
      hr.2.order_after_cached ((outcome_lift ..).trans hdata), o, rfl, hfound, hremembered rfl⟩

end Apfs
