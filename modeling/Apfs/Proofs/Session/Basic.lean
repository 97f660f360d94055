import Apfs.Proofs.ObjectMap.Agreement
import Apfs.Settings

namespace Apfs

/-!
# Sessions

A session is what somebody does with an opened container: one request after the other, in any
order, with the blocks that are kept and the mappings that are remembered carried along.

* `OpenResolver`, `Session` — the state of a session.
* `Objects` — where the virtual children of a tree are looked up.
* `Request`, `Shown`, `Answer`, `Response` — what is asked for, and what is seen of it.
* `Settings.perform`, `Settings.serve`, `Settings.serveAll` — one request, and many.
* `Settings.run` — a session on an image, from its start.
-/

variable {σ α : Type}

/-! ### State -/

/-- A resolver that was opened. -/
structure OpenResolver where
  /-- The resolver. -/
  resolver : Resolver
  /-- The mappings that it remembers. -/
  cache : AddressCache
  /-- The keys for which it found a live mapping so far. -/
  found : List ObjectMapKey

/-- The state of a reader, and the resolvers that were opened. -/
abbrev Session (σ : Type) := σ × List OpenResolver

namespace Session

/-- Reads blocks in a session. -/
abbrev reader (reader : BlockReader σ) : BlockReader (Session σ) := reader.extend _

/-- Lets the resolver with the given index answer about a key, and notes the key down if a mapping
    is found.  A resolver that was never opened finds nothing. -/
def ask (index : Nat) (key : ObjectMapKey)
    (x : Resolver → EStateM Error (σ × AddressCache) (Option α)) :
    EStateM Error (Session σ) (Option α) := fun (s, opened) =>
  match opened[index]? with
  | none => .ok none (s, opened)
  | some o =>
    match x o.resolver (s, o.cache) with
    | .ok none (s, cache) => .ok none (s, opened.set index { o with cache })
    | .ok (some a) (s, cache) =>
      .ok (some a) (s, opened.set index { o with cache, found := key :: o.found })
    | .error e (s, cache) => .error e (s, opened.set index { o with cache })

end Session

/-- Where virtual objects are looked up. -/
inductive Objects where
  /-- There are none. -/
  | none
  /-- In an object map. -/
  | map (m : ObjectMap)
  /-- With the resolver that was opened at this place in the order. -/
  | resolver (index : Nat)

namespace Objects

/-- Looks an object up in a session. -/
def lookup (reader : BlockReader σ) : Objects → ObjectLookup (Session σ)
  | none => .empty
  | map m => m.latest? (Session.reader reader)
  | resolver index => fun object transaction =>
    Session.ask index ⟨object, transaction⟩ fun r => r.lookup reader object transaction

/-- The object map, if there is one. -/
def map? (opened : List OpenResolver) : Objects → Option ObjectMap
  | none => .none
  | map m => some m
  | resolver index => opened[index]?.map fun o => o.resolver.map

end Objects

/-! ### Requests -/

/-- What a caller sees of a request besides its answer. -/
inductive Shown where
  /-- A visitor is given an entry of a tree. -/
  | entry (e : Entry)
  /-- A visitor is given a mapping of an object map. -/
  | mapping (key : ObjectMapKey) (value : ObjectMapValue)
  /-- The bytes in a buffer of the caller, afterwards. -/
  | buffer (data : ByteArray)

/-- What can be asked for.  Visitors are functions of all that was shown to them so far. -/
inductive Request where
  | readBlock (address : BlockAddress)
  | readVerified (address : BlockAddress)
  | readData (address : BlockAddress)
  | readInto (address : BlockAddress) (buffer : ByteArray)
  | openMap (block : Block)
  | openResolver (address : BlockAddress)
  | openTree (address : BlockAddress) (verified : Bool)
  | resolve (index : Nat) (object : VirtualId) (transaction : TransactionId)
  | latest (objects : Objects) (object : VirtualId) (transaction : TransactionId)
  | mappings (objects : Objects) (accept : List Shown → Except Error Unit)
  | search (t : Tree) (objects : Objects) (order : KeyOrder) (mode : SearchMode)
  | walk (t : Tree) (objects : Objects) (accept : List Shown → Except Error Unit)
  | lookupEntry (t : Tree) (objects : Objects) (format : EntryFormat) (parent : UInt64)
    (name : EncodedName)

/-- What a request gives. -/
inductive Answer where
  | done
  | block (b : Block)
  | bytes (data : ByteArray)
  | map (m : ObjectMap)
  | tree (t : Tree)
  | address (found : Option BlockAddress)
  | mapping (found : Option (ObjectMapKey × ObjectMapValue))
  | entry (found : Option Entry)
  | directoryEntry (found : Option (DirectoryKey × ByteArray))

/-- All that a caller sees of a request. -/
structure Response where
  /-- What is shown to visitors and left in buffers, in order. -/
  shown : List Shown
  /-- The answer, or why there is none. -/
  result : Except Error Answer

/-! ### Serving requests -/

namespace Session

variable (reader : BlockReader σ)

/-- Reads a block into a buffer of the caller, which is shown whether or not this succeeds. -/
def readInto (address : BlockAddress) (buffer : ByteArray) :
    EStateM Error (Session σ × List Shown) Unit := fun (session, shown) =>
  match (Session.reader reader).readInto address (session, buffer) with
  | .ok () (session, data) => .ok () (session, shown ++ [.buffer data])
  | .error e (session, data) => .error e (session, shown ++ [.buffer data])

/-- Opens the tree whose root is at a block. -/
def openTree (address : BlockAddress) (verified : Bool) : EStateM Error (Session σ) Tree := do
  let reader := Session.reader reader
  let block ← if verified then reader.readVerified address else reader.readBlock address
  lift (Tree.ofBlock block)

/-- Walks over the mappings of an object map. -/
def mappings (objects : Objects) (accept : List Shown → Except Error Unit) :
    EStateM Error (Session σ × List Shown) Unit := do
  let ((_, opened), _) ← get
  match objects.map? opened with
  | none => return ()
  | some m =>
    m.walk ((Session.reader reader).extend _) fun key value => judge accept (.mapping key value)

/-- Walks over the entries of a tree. -/
def walk (t : Tree) (objects : Objects) (accept : List Shown → Except Error Unit) :
    EStateM Error (Session σ × List Shown) Unit :=
  t.walk ((Session.reader reader).extend _) ((objects.lookup reader).extend _) fun e =>
    judge accept (.entry e)

end Session

namespace Settings

variable (s : Settings) (reader : BlockReader σ)

/-- Opens a resolver for the object map at a block, and gives its object map. -/
def openResolver (address : BlockAddress) : EStateM Error (Session σ) ObjectMap := do
  let resolver ← s.resolver (Session.reader reader) address
  modify fun (state, opened) => (state, opened ++ [⟨resolver, ∅, []⟩])
  return resolver.map

/-- Performs a request. -/
def perform : Request → EStateM Error (Session σ × List Shown) Answer
  | .readBlock address => .block <$> onFirst ((Session.reader reader).readBlock address)
  | .readVerified address => .block <$> onFirst ((Session.reader reader).readVerified address)
  | .readData address => .bytes <$> onFirst ((Session.reader reader).read address)
  | .readInto address buffer => (fun _ => .done) <$> Session.readInto reader address buffer
  | .openMap block => .map <$> onFirst (ObjectMap.ofBlock (Session.reader reader) block)
  | .openResolver address => .map <$> onFirst (s.openResolver reader address)
  | .openTree address verified => .tree <$> onFirst (Session.openTree reader address verified)
  | .resolve index object transaction =>
    .address <$> onFirst (Session.ask index ⟨object, transaction⟩ fun r =>
      r.resolve reader object transaction)
  | .latest objects object transaction =>
    .mapping <$> onFirst (objects.lookup reader object transaction)
  | .mappings objects accept => (fun _ => .done) <$> Session.mappings reader objects accept
  | .search t objects order mode =>
    .entry <$> onFirst (t.search (Session.reader reader) (objects.lookup reader) order mode)
  | .walk t objects accept => (fun _ => .done) <$> Session.walk reader t objects accept
  | .lookupEntry t objects format parent name =>
    .directoryEntry <$> onFirst
      (s.lookupEntry t (Session.reader reader) (objects.lookup reader) format parent name)

/-- Serves a request. -/
def serve (request : Request) (session : Session σ) : Response × Session σ :=
  match s.perform reader request (session, []) with
  | .ok answer (session, shown) => (⟨shown, .ok answer⟩, session)
  | .error e (session, shown) => (⟨shown, .error e⟩, session)

/-- Serves requests one after the other. -/
def serveAll : List Request → Session σ → List Response × Session σ
  | [], session => ([], session)
  | request :: rest, session =>
    let (response, session) := s.serve reader request session
    let (responses, session) := serveAll rest session
    (response :: responses, session)

/-- Opens an image, and serves requests from there.  Gives the responses, and the state in
    the end. -/
def run (image : ByteArray) (start : UInt64) (requests : List Request) :
    Except Error (List Response × Session (Unit × BlockCache)) := do
  let device ← s.device image start
  return s.serveAll (s.cached device.reader) requests (((), .empty), [])

end Settings

end Apfs
