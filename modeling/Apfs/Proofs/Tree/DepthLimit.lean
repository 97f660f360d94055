import Apfs.Proofs.Tree.Descent
import Apfs.Proofs.Tree.Scan

namespace Apfs

/-!
# The limit on depth

A descent ends whatever the blocks hold.  On the way down each node is one level below the one
before it, and no more than `Tree.maxDepth` links are followed from the root.  A link whose child is
rejected ends the operation, and so does one whose child is accepted but would be one node too many:
then the operation says that the tree is too deep.

* `Link.IsTooDeep`, `Link.Ends` — links that end an operation.
* `Conducted`, `Descends` — what the links that were followed say about the result; operations of
  which this holds.
* `descends_searchNoting`, `descends_walkNoting` — it does of searches and walks.
* `Tree.Chained` — links that go on from each other.
* `Tree.walkNoting_eq`, `Tree.searchNoting_eq` — the links that are followed to leaves below a root.
* `Tree.BoundedDescent`, `Tree.bounded_search_and_walk` — the bounds of every descent.
-/

variable {σ α β : Type}

/-! ### Links that end an operation -/

/-- The link leads from the last node that there may be on a path to a further one. -/
def Link.IsTooDeep (l : Link) : Prop :=
  l.path.length = Tree.maxDepth ∧ ∃ child, l.target = .ok child

/-- The operation that follows the link ends with the error: either the child is rejected, or it is
    one node too many. -/
def Link.Ends (l : Link) (e : Error) : Prop :=
  l.target = .error e ∨ l.IsTooDeep ∧ e = .treeTooDeep Tree.maxDepth

/-- A link ends an operation with one error. -/
theorem Link.Ends.unique {l : Link} {e e' : Error} (h : l.Ends e) (h' : l.Ends e') : e = e' := by
  obtain herror | ⟨⟨-, child, hchild⟩, rfl⟩ := h
  · obtain herror' | ⟨⟨-, child, hchild⟩, -⟩ := h'
    · exact Except.error.inj (herror.symm.trans herror')
    · cases herror.symm.trans hchild
  · obtain herror' | ⟨-, rfl⟩ := h'
    · cases hchild.symm.trans herror'
    · rfl

/-- The operation does not go on behind a link that ends it; and if it says that a tree is too deep,
    it passes that on, or a link has ended it. -/
structure Conducted (Good : Link → Prop) (Passed : Nat → Prop) (links : List Link)
    (result : Except Error α) : Prop where
  good : ∀ l ∈ links, Good l
  ended : ∀ i l e, links[i]? = some l → l.Ends e → i + 1 = links.length ∧ result = .error e
  tooDeep_only : ∀ n, result = .error (.treeTooDeep n) →
    Passed n ∨ ∃ l ∈ links, l.Ends (.treeTooDeep n)

namespace Conducted

variable {Good : Link → Prop} {Passed : Nat → Prop} {links more : List Link}

theorem nil {result : Except Error α} (h : Passes Passed result) :
    Conducted Good Passed [] result where
  good := nofun
  ended i l e hi := by
    rw [List.getElem?_nil] at hi
    cases hi
  tooDeep_only _ hn := .inl (h hn)

/-- A link that does not end the operation. -/
theorem one {l : Link} {a : α} (hgood : Good l) (h : ∀ e, ¬ l.Ends e) :
    Conducted Good Passed [l] (.ok a : Except Error α) where
  good l' hl' := List.mem_singleton.mp hl' ▸ hgood
  ended i l' e hi hends := by
    rw [List.mem_singleton.mp (List.mem_of_getElem? hi)] at hends
    exact absurd hends (h e)
  tooDeep_only := nofun

/-- A link that ends the operation. -/
theorem last {l : Link} {e : Error} (hgood : Good l) (h : l.Ends e) :
    Conducted Good Passed [l] (.error e : Except Error α) where
  good l' hl' := List.mem_singleton.mp hl' ▸ hgood
  ended i l' e' hi hends := by
    obtain ⟨hlt, -⟩ := List.getElem?_eq_some_iff.mp hi
    rw [List.mem_singleton.mp (List.mem_of_getElem? hi)] at hends
    rw [List.length_singleton] at hlt ⊢
    exact ⟨by omega, congrArg _ (h.unique hends)⟩
  tooDeep_only n hn := .inr ⟨l, List.mem_singleton_self l, Except.error.inj hn ▸ h⟩

/-- An operation that failed is not gone on with. -/
theorem of_error {e : Error} (h : Conducted Good Passed links (.error e : Except Error α)) :
    Conducted Good Passed links (.error e : Except Error β) where
  good := h.good
  ended i l e' hi hends := by
    obtain ⟨hlast, he⟩ := h.ended i l e' hi hends
    exact ⟨hlast, congrArg _ (Except.error.inj he)⟩
  tooDeep_only n hn := h.tooDeep_only n (congrArg _ (Except.error.inj hn))

/-- Behind links that did not end an operation, it may follow more. -/
theorem append {a : α} {result : Except Error β} (h : Conducted Good Passed links (.ok a))
    (h' : Conducted Good Passed more result) : Conducted Good Passed (links ++ more) result where
  good l hl := (List.mem_append.mp hl).elim (h.good l) (h'.good l)
  ended i l e hi hends := by
    rw [List.getElem?_append] at hi
    split at hi
    · obtain ⟨-, hok⟩ := h.ended i l e hi hends
      cases hok
    · next hle =>
      obtain ⟨hlast, he⟩ := h'.ended _ l e hi hends
      rw [List.length_append]
      exact ⟨by omega, he⟩
  tooDeep_only n hn := by
    refine (h'.tooDeep_only n hn).imp_right fun ⟨l, hl, hends⟩ => ⟨l, ?_, hends⟩
    exact List.mem_append_right _ hl

end Conducted

namespace Tree

variable {t : Tree} {reader : BlockReader σ} {lookup : ObjectLookup σ}

/-! ### Operations that follow links -/

/-- Started in a valid state, the operation leaves one, and it notes down links that say about its
    result what they have to. -/
def Descends (Valid : σ → Prop) (Good : Link → Prop) (Passed : Nat → Prop)
    (x : EStateM Error (σ × List Link) α) : Prop :=
  ∀ ⦃s⦄, Valid s → ∀ links, ∃ s' more, after x (s, links) = (s', links ++ more) ∧ Valid s' ∧
    Conducted Good Passed more (outcome x (s, links))

namespace Descends

variable {Valid : σ → Prop} {Good : Link → Prop} {Passed : Nat → Prop}

theorem pure (a : α) :
    Descends Valid Good Passed (Pure.pure a : EStateM Error (σ × List Link) α) :=
  fun s hs links => ⟨s, [], by rw [after_pure, List.append_nil], hs, .nil (.ok a)⟩

/-- What does not follow links notes none down. -/
theorem onFirst {x : EStateM Error σ α} {Q : α → Prop} (hx : Ensures Valid Passed x Q) :
    Descends Valid Good Passed (Apfs.onFirst x) := by
  intro s hs links
  obtain ⟨hvalid, hpasses, -⟩ := hx hs
  rw [outcome_onFirst, after_onFirst]
  exact ⟨_, [], by rw [List.append_nil], hvalid, .nil hpasses⟩

/-- In a sequence, the second step follows its links behind those of the first one. -/
theorem bind {x : EStateM Error (σ × List Link) α} {f : α → EStateM Error (σ × List Link) β}
    (hx : Descends Valid Good Passed x) (hf : ∀ a, Descends Valid Good Passed (f a)) :
    Descends Valid Good Passed (x >>= f) := by
  intro s hs links
  obtain ⟨s', more, hafter, hvalid, hmore⟩ := hx hs links
  rw [outcome_bind, after_bind, hafter]
  cases hout : outcome x (s, links) with
  | ok a =>
    obtain ⟨s'', last, hafter', hvalid', hlast⟩ := hf a hvalid (links ++ more)
    rw [hout] at hmore
    exact ⟨s'', more ++ last, by rw [← List.append_assoc]; exact hafter', hvalid',
      hmore.append hlast⟩
  | error e =>
    rw [hout] at hmore
    exact ⟨s', more, rfl, hvalid, hmore.of_error⟩

/-- What has been computed without following links may be used in what comes after it. -/
theorem lift_bind {x : Except Error α} {f : α → EStateM Error (σ × List Link) β}
    (hx : Passes Passed x) (hf : ∀ a, x = .ok a → Descends Valid Good Passed (f a)) :
    Descends Valid Good Passed (lift x >>= f) := by
  intro s hs links
  rw [outcome_bind, after_bind, outcome_lift, after_lift]
  cases x with
  | ok a => exact hf a rfl hs links
  | error e =>
    refine ⟨s, [], by rw [List.append_nil], hs, .nil fun n hn => ?_⟩
    exact hx (congrArg _ (Except.error.inj hn))

/-- Along a list, the operation follows the links of each element. -/
theorem forM {f : α → EStateM Error (σ × List Link) Unit}
    (h : ∀ a, Descends Valid Good Passed (f a)) (l : List α) :
    Descends Valid Good Passed (l.forM f) := by
  induction l with
  | nil => exact .pure ()
  | cons a l ih => exact (h a).bind fun _ => ih

end Descends

/-! ### Following a link -/

/-- The link starts from an index node on a path, and there are not too many nodes above it.  If it
    was rejected because a tree is too deep, it was another tree. -/
structure IsFollowed (t : Tree) (reader : BlockReader σ) (lookup : ObjectLookup σ)
    (Valid : σ → Prop) (l : Link) : Prop where
  isPath : IsPath t reader lookup Valid l.nodes
  isLeaf_eq_false : ∀ n ∈ l.path, n.header.isLeaf = false
  length_le : l.path.length ≤ maxDepth
  saysTooDeep : ∀ n, l.target = .error (.treeTooDeep n) → lookup.SaysTooDeep Valid n

section

variable {Valid : σ → Prop} {Passed : Nat → Prop} {image : ByteArray} {start blockSize : Nat}
  (hreads : reader.ReadsImage Valid image start blockSize)
  (hlookup : ∀ object transaction s, Valid s → Valid (after (lookup object transaction) s))

include hreads hlookup

/-- **A step down.**  If the child is the last node that there may be, what comes next is the error;
    otherwise the descent goes on from it. -/
theorem descends_follow_bind {above : List Node} {node : Node} {index : Nat} {entry : Entry}
    (hpath : IsPath t reader lookup Valid (node :: above)) (hindex : node.header.isLeaf = false)
    (hentry : node.entry index t.info = .ok entry) (hlength : above.length < maxDepth)
    {f : Node → EStateM Error (σ × List Link) α}
    (hlast : above.length + 1 = maxDepth → ∀ child, f child = throw (.treeTooDeep maxDepth))
    (hdeeper : above.length + 1 < maxDepth → ∀ child,
      IsPath t reader lookup Valid (child :: node :: above) →
        Descends Valid (t.IsFollowed reader lookup Valid) Passed (f child)) :
    Descends Valid (t.IsFollowed reader lookup Valid) Passed
      (t.follow reader lookup above node entry >>= f) := by
  intro s hs links
  obtain ⟨hvalid, hpasses, -⟩ := ensures_child hreads hlookup node entry hs
  have hleaf : ∀ n ∈ node :: above, n.header.isLeaf = false := by
    intro n hn
    obtain rfl | hn := List.mem_cons.mp hn
    · exact hindex
    · exact hpath.isLeaf_eq_false n hn
  rw [outcome_bind, after_bind, outcome_follow, after_follow]
  cases hchild : outcome (t.child reader lookup node entry) s with
  | error e =>
    rw [hchild] at hpasses
    exact ⟨_, [⟨node :: above, .error e⟩], rfl, hvalid,
      .last ⟨hpath, hleaf, hlength, hpasses⟩ (.inl rfl)⟩
  | ok child =>
    have hpath' := hpath.child hindex hentry hs hchild
    have hgood : t.IsFollowed reader lookup Valid ⟨node :: above, .ok child⟩ :=
      ⟨hpath', hleaf, hlength, nofun⟩
    dsimp only
    by_cases hmax : above.length + 1 = maxDepth
    · rw [hlast hmax, outcome_throw, after_throw]
      have hdeep : Link.IsTooDeep ⟨node :: above, .ok child⟩ := ⟨hmax, child, rfl⟩
      exact ⟨_, _, rfl, hvalid, .last hgood (.inr ⟨hdeep, rfl⟩)⟩
    · have hnot (e : Error) : ¬ Link.Ends ⟨node :: above, .ok child⟩ e := by
        rintro (herror | ⟨⟨hmax', -⟩, -⟩)
        · cases herror
        · exact hmax hmax'
      obtain ⟨s', more, hafter, hvalid', hmore⟩ := hdeeper (by omega) child hpath' hvalid
        (links ++ [⟨node :: above, .ok child⟩])
      rw [List.append_assoc] at hafter
      exact ⟨s', _, hafter, hvalid', Conducted.append (.one (a := ()) hgood hnot) hmore⟩

/-! ### Searches and walks -/

/-- **Searches** descend.  On the number of nodes that may be followed, which is what the nodes
    above leave of the limit. -/
theorem descends_searchNoting {order : KeyOrder} (horder : ∀ key, Passes Passed (order key))
    (mode : SearchMode) {depth : Nat} {above : List Node} {node : Node}
    (hpath : IsPath t reader lookup Valid (node :: above)) (hlength : above.length < maxDepth)
    (hdepth : above.length + depth = maxDepth) :
    Descends Valid (t.IsFollowed reader lookup Valid) Passed
      (t.searchNoting reader lookup order mode depth above node) := by
  induction depth generalizing above node with
  | zero => omega
  | succ depth ih =>
    refine .lift_bind (passes_floor node t.info horder) fun found _ => ?_
    cases found with
    | none => exact .pure _
    | some found =>
      have hentry : Passes Passed (node.entry found.1 t.info) := passes_entry ..
      dsimp only
      split
      · split
        · exact .lift_bind hentry fun _ _ => .pure _
        · exact .pure _
      · next hindex =>
        refine .lift_bind hentry fun entry hentry => ?_
        refine descends_follow_bind hreads hlookup hpath (Bool.not_eq_true _ ▸ hindex) hentry
          hlength (fun hmax child => ?_) fun hlt child hpath' => ih hpath' hlt ?_
        · -- The child would be one node too many, so no depth is left for it.
          obtain rfl : depth = 0 := by omega
          rfl
        · rw [List.length_cons]
          omega

/-- **Walks** descend, if their visitors keep states valid.  On the number of nodes that may be
    followed, and for each node along its indexes. -/
theorem descends_walkNoting {visit : Entry → EStateM Error σ Unit}
    (hvisit : ∀ e, Ensures Valid Passed (visit e) fun _ => True) {depth : Nat} {above : List Node}
    {node : Node} (hpath : IsPath t reader lookup Valid (node :: above))
    (hlength : above.length < maxDepth) (hdepth : above.length + depth = maxDepth) :
    Descends Valid (t.IsFollowed reader lookup Valid) Passed
      (t.walkNoting reader lookup visit depth above node) := by
  induction depth generalizing above node with
  | zero => omega
  | succ depth ih =>
    refine .forM (fun index => .lift_bind (passes_entry node index t.info) fun entry hentry => ?_) _
    split
    · exact .onFirst (hvisit entry)
    · next hindex =>
      refine descends_follow_bind hreads hlookup hpath (Bool.not_eq_true _ ▸ hindex) hentry hlength
        (fun hmax child => ?_) fun hlt child hpath' => ih hpath' hlt ?_
      · obtain rfl : depth = 0 := by omega
        rfl
      · rw [List.length_cons]
        omega

end

/-! ### Chains -/

/-- Each link goes on from the nodes that had been reached when those before it were followed. -/
def Chained : (path : List Node) → List Link → Prop
  | _, [] => True
  | path, l :: links => l.path = path ∧ Chained l.nodes links

/-- The operation notes down a chain from the path, of at most `count` links. -/
def NotesChain (path : List Node) (count : Nat) (x : EStateM Error (σ × List Link) α) : Prop :=
  ∀ s links, ∃ s' more, after x (s, links) = (s', links ++ more) ∧ Chained path more ∧
    more.length ≤ count

namespace NotesChain

variable {path : List Node} {count : Nat}

theorem of_after {x : EStateM Error (σ × List Link) α} (h : ∀ p, after x p = p) :
    NotesChain path count x :=
  fun s links => ⟨s, [], by rw [h, List.append_nil], trivial, Nat.zero_le _⟩

theorem lift_bind {x : Except Error α} {f : α → EStateM Error (σ × List Link) β}
    (hf : ∀ a, NotesChain path count (f a)) : NotesChain path count (lift x >>= f) := by
  intro s links
  rw [after_bind, outcome_lift, after_lift]
  cases x with
  | ok a => exact hf a s links
  | error e => exact ⟨s, [], by rw [List.append_nil], trivial, Nat.zero_le _⟩

theorem follow_bind {above : List Node} {node : Node} {entry : Entry}
    {f : Node → EStateM Error (σ × List Link) α}
    (hf : ∀ child, NotesChain (child :: node :: above) count (f child)) :
    NotesChain (node :: above) (count + 1) (t.follow reader lookup above node entry >>= f) := by
  intro s links
  rw [after_bind, outcome_follow, after_follow]
  cases outcome (t.child reader lookup node entry) s with
  | error e => exact ⟨_, [_], rfl, ⟨rfl, trivial⟩, Nat.succ_le_succ (Nat.zero_le _)⟩
  | ok child =>
    obtain ⟨s', more, hafter, hchained, hlength⟩ := hf child
      (after (t.child reader lookup node entry) s) (links ++ [⟨node :: above, .ok child⟩])
    rw [List.append_assoc] at hafter
    exact ⟨s', _, hafter, ⟨rfl, hchained⟩, Nat.succ_le_succ hlength⟩

end NotesChain

/-- The links of a search go on from each other. -/
theorem notesChain_searchNoting (order : KeyOrder) (mode : SearchMode) (depth : Nat)
    (above : List Node) (node : Node) : NotesChain (node :: above) depth
      (t.searchNoting reader lookup order mode depth above node) := by
  induction depth generalizing above node with
  | zero => exact .of_after fun _ => rfl
  | succ depth ih =>
    refine .lift_bind fun found => ?_
    cases found with
    | none => exact .of_after fun _ => rfl
    | some found =>
      dsimp only
      split
      · split
        · exact .lift_bind fun _ => .of_after fun _ => rfl
        · exact .of_after fun _ => rfl
      · exact .lift_bind fun entry => .follow_bind fun child => ih (node :: above) child

/-! ### Links to leaves -/

section

variable {S : Storage Unit} {parent child : Node} {entry : Entry} {links : List Link}

/-- Following a link to a child that is accepted. -/
theorem follow_of_child (h : S.Child t parent entry child) (above : List Node) :
    t.follow S.reader S.lookup above parent entry ((), links)
      = .ok child ((), links ++ [⟨parent :: above, .ok child⟩]) := by
  obtain ⟨⟨⟩, -, hchild⟩ := h
  rw [eq_ok_iff, outcome_follow, after_follow, hchild]
  exact ⟨rfl, rfl⟩

/-- A visitor that does nothing does nothing on a leaf. -/
theorem walkNoting_of_isLeaf {leaf : Node} {part : List Entry}
    (hleaf : leaf.header.isLeaf = true) (hentries : leaf.HasEntries t.info part) (depth : Nat)
    (above : List Node) (p : σ × List Link) :
    t.walkNoting reader lookup (fun _ => pure ()) (depth + 1) above leaf p = .ok () p := by
  rw [hasEntries_iff] at hentries
  unfold walkNoting
  generalize List.range leaf.size = indexes at hentries
  induction hentries with
  | nil => rfl
  | cons hentry _ ih =>
    refine bind_eq_ok_iff.mpr ⟨(), p, ?_, ih⟩
    refine bind_eq_ok_iff.mpr ⟨_, p, lift_eq_ok_iff.mpr ⟨hentry, rfl⟩, ?_⟩
    rw [if_pos hleaf]
    rfl

/-- Steps that each note down one link note down all of them. -/
theorem forM_of_notes {f : Nat → EStateM Error (Unit × List Link) Unit} {indexes : List Nat}
    {more : List Link}
    (h : List.Forall₂ (fun i l => ∀ links, f i ((), links) = .ok () ((), links ++ [l]))
      indexes more) :
    indexes.forM f ((), links) = .ok () ((), links ++ more) := by
  induction h generalizing links with
  | nil =>
    rw [List.append_nil]
    rfl
  | @cons i l indexes more hone _ ih =>
    refine bind_eq_ok_iff.mpr ⟨(), ((), links ++ [l]), hone links, ?_⟩
    rw [ih, List.append_assoc, List.singleton_append]

/-- **A walk follows one link to each leaf**, in their order. -/
theorem walkNoting_eq {index : List Entry} {parts : List (List Entry)} {leaves : List Node}
    (h : S.HasLeaves t index parts) (hleaves : List.Forall₂ (S.Child t t.root) index leaves)
    (depth : Nat) :
    t.walkNoting S.reader S.lookup (fun _ => pure ()) (depth + 2) [] t.root ((), links)
      = .ok () ((), links ++ leaves.map fun leaf => ⟨[t.root], .ok leaf⟩) := by
  apply forM_of_notes
  rw [List.forall₂_map_right_iff]
  have hindex : ¬ t.root.header.isLeaf = true := by
    rw [h.isLeaf_eq_false]
    exact Bool.false_ne_true
  rw [List.forall₂_iff_get]
  refine ⟨by rw [List.length_range, ← h.root.1, hleaves.length_eq], fun i hi hi' links => ?_⟩
  rw [List.get_eq_getElem, List.getElem_range]
  have hi' : i < index.length := hleaves.length_eq ▸ hi'
  have hentry := h.root.2 i _ (List.getElem?_eq_getElem hi')
  have hchild := hleaves.get hi' ‹_›
  obtain ⟨hleaf, part, -, -, hpart⟩ := h.exists_leaf hentry hchild
  refine bind_eq_ok_iff.mpr ⟨_, _, lift_eq_ok_iff.mpr ⟨hentry, rfl⟩, ?_⟩
  rw [if_neg hindex]
  exact bind_eq_ok_iff.mpr ⟨_, _, follow_of_child hchild [], walkNoting_of_isLeaf hleaf hpart ..⟩

/-- **A search follows one link**, to the leaf that its floor in the root leads to. -/
theorem searchNoting_eq {index : List Entry} {parts : List (List Entry)} {order : KeyOrder}
    {mode : SearchMode} {i j : Nat} {o o' : Ordering} {e : Entry} {leaf : Node}
    (h : S.HasLeaves t index parts) (hfloor : t.root.floor t.info order = .ok (some (i, o)))
    (hentry : t.root.entry i t.info = .ok entry) (hchild : S.Child t t.root entry leaf)
    (hleafFloor : leaf.floor t.info order = .ok (some (j, o'))) (haccepts : mode.accepts o' = true)
    (hfound : leaf.entry j t.info = .ok e) (depth : Nat) :
    t.searchNoting S.reader S.lookup order mode (depth + 2) [] t.root ((), links)
      = .ok (some e) ((), links ++ [⟨[t.root], .ok leaf⟩]) := by
  obtain ⟨hleaf, -⟩ := h.exists_leaf hentry hchild
  refine bind_eq_ok_iff.mpr ⟨_, _, lift_eq_ok_iff.mpr ⟨hfloor, rfl⟩, ?_⟩
  dsimp only
  rw [if_neg (by rw [h.isLeaf_eq_false]; exact Bool.false_ne_true)]
  refine bind_eq_ok_iff.mpr ⟨_, _, lift_eq_ok_iff.mpr ⟨hentry, rfl⟩, ?_⟩
  refine bind_eq_ok_iff.mpr ⟨_, _, follow_of_child hchild [], ?_⟩
  refine bind_eq_ok_iff.mpr ⟨_, _, lift_eq_ok_iff.mpr ⟨hleafFloor, rfl⟩, ?_⟩
  dsimp only
  rw [if_pos hleaf, if_pos haccepts]
  exact bind_eq_ok_iff.mpr ⟨_, _, lift_eq_ok_iff.mpr ⟨hfound, rfl⟩, rfl⟩

end

/-- If the middle one of its entries compares equal, the binary search in a node ends there. -/
theorem floor_of_middle {node : Node} {order : KeyOrder} {i : Nat} {e : Entry}
    (hsize : 0 < node.size) (hi : node.size / 2 = i) (hentry : node.entry i t.info = .ok e)
    (horder : order e.key = .ok .eq) : node.floor t.info order = .ok (some (i, .eq)) := by
  rw [Node.floor, Node.floorBetween, if_pos hsize]
  dsimp only
  rw [Nat.sub_zero, Nat.zero_add, hi, sequence_eq_ok_iff]
  refine ⟨e, hentry, ?_⟩
  rw [sequence_eq_ok_iff]
  exact ⟨.eq, horder, rfl⟩

/-! ### Every descent -/

/-- The operation `x` is `y` with its links noted down, and from the state it follows these. -/
def Follows (x : EStateM Error (σ × List Link) α) (y : EStateM Error σ α) (s : σ)
    (links : List Link) : Prop :=
  outcome x (s, []) = outcome y s ∧ after x (s, []) = (after y s, links)

/-- The bounds of a descent in the tree that followed the links and gave the result. -/
structure BoundedDescent (t : Tree) (reader : BlockReader σ) (lookup : ObjectLookup σ)
    (Valid : σ → Prop) (Passed : Nat → Prop) (links : List Link) (result : Except Error α) :
    Prop where
  /-- Every path goes down from the root, over entries of index nodes to accepted children. -/
  isPath : ∀ l ∈ links, IsPath t reader lookup Valid l.nodes
  /-- The node after `i` links is `i` levels below the root. -/
  level : ∀ l ∈ links, ∀ i n, l.nodes.reverse[i]? = some n →
    n.header.level.toNat + i = t.root.header.level.toNat
  /-- No block is on a path twice. -/
  nodup : ∀ l ∈ links, (l.nodes.map (·.block.address)).Nodup
  /-- On a path, no more children are accepted than the root has levels, and than there may be. -/
  length_le : ∀ l ∈ links, l.nodes.length ≤ min t.root.header.level.toNat maxDepth + 1
  /-- Links start from index nodes, as do those on the way to them. -/
  isLeaf_eq_false : ∀ l ∈ links, ∀ n ∈ l.path, n.header.isLeaf = false
  /-- A link whose child is rejected is the last one, and the result is its error.  A link whose
      child is accepted below `maxDepth` index nodes is the last one, and the result is that the
      tree is too deep. -/
  ended : ∀ i l e, links[i]? = some l → l.Ends e → i + 1 = links.length ∧ result = .error e
  /-- Otherwise the result says that a tree is too deep only if that is passed on, for one from the
      lookup when a child is rejected.  For the tree to be too deep, the root has to have as many
      levels. -/
  tooDeep_only : ∀ n, result = .error (.treeTooDeep n) → Passed n ∨
    (lookup.SaysTooDeep Valid n ∧ ∃ l ∈ links, l.target = .error (.treeTooDeep n)) ∨
    n = maxDepth ∧ maxDepth ≤ t.root.header.level.toNat ∧ ∃ l ∈ links, l.IsTooDeep

section

variable {Valid : σ → Prop} {image : ByteArray} {start blockSize : Nat}
  (hreads : reader.ReadsImage Valid image start blockSize)
  (hlookup : ∀ object transaction s, Valid s → Valid (after (lookup object transaction) s))

include hreads hlookup

/-- Links that were followed from a root in the image are bounded. -/
theorem boundedDescent_of_conducted {Passed : Nat → Prop}
    (hroot : t.root.StandsInImage image start blockSize) {links : List Link}
    {result : Except Error α}
    (h : Conducted (t.IsFollowed reader lookup Valid) Passed links result) :
    t.BoundedDescent reader lookup Valid Passed links result := by
  have hlevels : ∀ l ∈ links, l.nodes.length ≤ t.root.header.level.toNat + 1 :=
    fun l hl => (h.good l hl).isPath.length_le hreads hlookup
  refine ⟨fun l hl => (h.good l hl).isPath, fun l hl i n hi => ?_, fun l hl => ?_,
    fun l hl => ?_, fun l hl => (h.good l hl).isLeaf_eq_false, h.ended, fun n hn => ?_⟩
  · -- Paths go up to the root, and levels are counted from there.
    obtain ⟨hlt, -⟩ := List.getElem?_eq_some_iff.mp hi
    rw [List.length_reverse] at hlt
    rw [List.getElem?_reverse hlt] at hi
    rw [← (h.good l hl).isPath.level_add hreads hlookup _ hi]
    omega
  · exact (h.good l hl).isPath.nodup hreads hlookup hroot
  · have hnodes : l.nodes.length ≤ l.path.length + 1 := by
      unfold Link.nodes
      cases l.target with
      | ok child => exact (List.length_cons ..).le
      | error e => exact Nat.le_succ _
    have hmax := (h.good l hl).length_le
    have := hlevels l hl
    omega
  · refine (h.tooDeep_only n hn).imp_right fun ⟨l, hl, hends⟩ => ?_
    obtain htarget | ⟨hdeep, he⟩ := hends
    · exact .inl ⟨(h.good l hl).saysTooDeep n htarget, l, hl, htarget⟩
    · obtain ⟨hlength, child, hchild⟩ := hdeep
      have hnodes := hlevels l hl
      rw [Link.nodes, hchild, List.length_cons, hlength] at hnodes
      exact .inr ⟨Error.treeTooDeep.inj he, by omega, l, hl, hlength, child, hchild⟩

/-- An operation that is another one with its links noted down is bounded, if it descends from a
    root in the image. -/
theorem exists_boundedDescent {Passed : Nat → Prop}
    (hroot : t.root.StandsInImage image start blockSize)
    {x : EStateM Error (σ × List Link) α} {y : EStateM Error σ α} (hsame : SameBeside x y)
    (hx : Descends Valid (t.IsFollowed reader lookup Valid) Passed x) {s : σ} (hs : Valid s) :
    ∃ links, Follows x y s links ∧
      t.BoundedDescent reader lookup Valid Passed links (outcome y s) := by
  obtain ⟨hout, hstate⟩ := hsame (s := (s, [])) rfl
  obtain ⟨s', links, hafter, -, hlinks⟩ := hx hs []
  rw [hafter] at hstate
  obtain rfl := hstate
  rw [hout.eq] at hlinks
  exact ⟨links, ⟨hout.eq, hafter⟩, boundedDescent_of_conducted hreads hlookup hroot hlinks⟩

/-- **Descents are bounded.**  Take any image, and a tree whose root is one of its blocks; what the
    other blocks hold does not matter, nor how objects are looked up and keys compared.  Every
    search and every walk gives a result.  On its way down, nodes lose one level at each link, no
    block occurs twice, and no more than `maxDepth` children are accepted.  Both operations say that
    the tree is too deep where a child is accepted below that many index nodes, and otherwise only
    where the lookup, the comparison or the visitor says that a tree is. -/
theorem bounded_search_and_walk {block : Block}
    (hblock : blockOf image start blockSize block.address = .ok block.data)
    (ht : Tree.ofBlock block = .ok t) {s : σ} (hs : Valid s) :
    (∀ order mode, ∃ links,
      Follows (t.searchNoting reader lookup order mode maxDepth [] t.root)
        (t.search reader lookup order mode) s links ∧
      Chained [t.root] links ∧ links.length ≤ maxDepth ∧
      t.BoundedDescent reader lookup Valid (fun n => ∃ key, order key = .error (.treeTooDeep n))
        links (outcome (t.search reader lookup order mode) s)) ∧
    ∀ visit : Entry → EStateM Error σ Unit, (∀ e s, Valid s → Valid (after (visit e) s)) →
      ∃ links,
        Follows (t.walkNoting reader lookup visit maxDepth [] t.root)
          (t.walk reader lookup visit) s links ∧
        t.BoundedDescent reader lookup Valid (fun n => ∃ e, SaysTooDeep Valid n (visit e)) links
          (outcome (t.walk reader lookup visit) s) := by
  have hroot := standsInImage_of_ofBlock hblock ht
  have hlength : ([] : List Node).length < maxDepth := by decide
  refine ⟨fun order mode => ?_, fun visit hvisit => ?_⟩
  · have hcompares (key : ByteArray) :
        Passes (fun n => ∃ key, order key = .error (.treeTooDeep n)) (order key) :=
      fun n hn => ⟨key, hn⟩
    obtain ⟨links, hfollows, hbounded⟩ := exists_boundedDescent hreads hlookup hroot
      (sameBeside_searchNoting order mode maxDepth [] t.root)
      (descends_searchNoting hreads hlookup hcompares mode .root hlength rfl) hs
    -- The notes of one run are a chain as well.
    obtain ⟨s', more, hafter, hchained, hcount⟩ :=
      notesChain_searchNoting order mode maxDepth [] t.root s []
    obtain rfl := (Prod.mk.inj (hafter.symm.trans hfollows.2)).2
    exact ⟨more, hfollows, hchained, hcount, hbounded⟩
  · have hvisits (e : Entry) : Ensures Valid (fun n => ∃ e, SaysTooDeep Valid n (visit e))
        (visit e) fun _ => True := by
      refine fun s hs => ⟨hvisit e s hs, fun n hn => ?_, fun _ _ => trivial⟩
      exact ⟨e, s, hs, hn⟩
    exact exists_boundedDescent hreads hlookup hroot
      (sameBeside_walkNoting visit maxDepth [] t.root)
      (descends_walkNoting hreads hlookup hvisits .root hlength rfl) hs

end

/-- Below a root with two leaves, a search follows one link and a walk follows two.  Each link goes
    one level down, to a child that is accepted. -/
theorem bounded_search_and_walk_twoLeaves :
    let found : Entry := ⟨⟨#[99]⟩, ⟨#[2]⟩⟩
    let order := firstByteOrder 99
    let visit : Entry → EStateM Error Unit Unit := fun _ => pure ()
    ∃ (d : Device) (t : Tree) (first second : Node),
      writtenTree ⟨0xff⟩ 256 twoLeaves = .ok (d, t) ∧
      d.reader.ReadsImage (fun _ => True) d.image 0 256 ∧
      outcome (t.search d.reader .empty order .exact) () = .ok (some found) ∧
      second.header.level.toNat + 1 = t.root.header.level.toNat ∧
      Chained [t.root] [⟨[t.root], .ok second⟩] ∧
      t.BoundedDescent d.reader .empty (fun _ => True)
        (fun n => ∃ key, order key = .error (.treeTooDeep n)) [⟨[t.root], .ok second⟩]
        (outcome (t.search d.reader .empty order .exact) ()) ∧
      outcome (t.walk d.reader .empty visit) () = .ok () ∧
      t.BoundedDescent d.reader .empty (fun _ => True)
        (fun n => ∃ e, SaysTooDeep (fun _ => True) n (visit e))
        [⟨[t.root], .ok first⟩, ⟨[t.root], .ok second⟩]
        (outcome (t.walk d.reader .empty visit) ()) := by
  intro found order visit
  obtain ⟨d, t, hwritten, hleaves, hd, himage, block, hblock, ht⟩ :=
    exists_writtenTree fits_twoLeaves (by decide) (by decide) (by decide)
  have hreads : d.reader.ReadsImage (fun _ => True) d.image 0 256 := Device.readsImage himage hd
  obtain ⟨first, second, hchildren, hsecond⟩ : ∃ first second,
      List.Forall₂ (d.source.storage.Child t t.root) (indexEntries 1 twoLeaves) [first, second] ∧
      second.HasEntries t.info [found] := by
    obtain ⟨⟩ | ⟨⟨first, hfirst, -⟩, ⟨⟩ | ⟨⟨second, hsecond, -, hentries⟩, ⟨⟩⟩⟩ := hleaves.leaves
    exact ⟨first, second, .cons hfirst (.cons hsecond .nil), hentries⟩
  obtain ⟨hsearches, hwalks⟩ := @bounded_search_and_walk Unit t d.reader .empty _ _ _ _ hreads
    (fun _ _ _ _ => trivial) block hblock ht () trivial
  obtain ⟨links, hfollows, hchained, -, hbounded⟩ := hsearches order .exact
  obtain ⟨links', hfollows', hbounded'⟩ := hwalks visit fun _ _ _ => trivial
  -- The key 99 is the middle one of the two in the root, and the only one in its leaf.
  have hsearch : t.searchNoting d.reader .empty order .exact maxDepth [] t.root ((), [])
      = .ok (some found) ((), [⟨[t.root], .ok second⟩]) := by
    have hsize : t.root.size = 2 := hleaves.root.1.symm
    have hsize' : second.size = 1 := hsecond.1.symm
    have hentry := hleaves.root.2 1 _ rfl
    have hentry' := hsecond.2 0 _ rfl
    have hfloor : t.root.floor t.info order = .ok (some (1, .eq)) :=
      floor_of_middle (by omega) (by omega) hentry rfl
    have hfloor' : second.floor t.info order = .ok (some (0, .eq)) :=
      floor_of_middle (by omega) (by omega) hentry' rfl
    have hchild := hchildren.get (i := 1) (Nat.lt_succ_self 1) (Nat.lt_succ_self 1)
    exact searchNoting_eq hleaves hfloor hentry hchild hfloor' rfl hentry' 14
  have hwalk : t.walkNoting d.reader .empty visit maxDepth [] t.root ((), [])
      = .ok () ((), [⟨[t.root], .ok first⟩, ⟨[t.root], .ok second⟩]) :=
    walkNoting_eq hleaves hchildren 14
  obtain ⟨hout, hafter⟩ := eq_ok_iff.mp hsearch
  obtain ⟨hout', hafter'⟩ := eq_ok_iff.mp hwalk
  obtain rfl := (Prod.mk.inj (hafter.symm.trans hfollows.2)).2
  obtain rfl := (Prod.mk.inj (hafter'.symm.trans hfollows'.2)).2
  have hlevel := hbounded.level _ (List.mem_singleton_self _) 1 second rfl
  exact ⟨d, t, first, second, hwritten, hreads, hfollows.1.symm.trans hout, hlevel, hchained,
    hbounded, hfollows'.1.symm.trans hout', hbounded'⟩

end Tree

/-! A root with one child, which is a virtual object. -/

/-- An index node with one entry. -/
def oneChildHeader : NodeHeader where
  object := ⟨0x01d11d51be13e101, ⟨1⟩, ⟨1⟩, ⟨0x40000002⟩, ⟨0xff⟩⟩
  flags := .root
  level := 1
  keyCount := 1
  table := ⟨0, 8⟩
  freeSpace := ⟨0, 0⟩
  freeKeys := ⟨0xffff, 0⟩
  freeValues := ⟨0xffff, 0⟩

/-- Information about a tree whose children are virtual objects. -/
def oneChildInfo : TreeInfo where
  parameters := ⟨⟨0⟩, 120, 8, 8⟩
  longestKey := 8
  longestValue := 8
  keyCount := 1
  nodeCount := 1

/-- The only block of an image. -/
def oneChildBlock : Block where
  address := ⟨0⟩
  data := encoded oneChildHeader ++ encoded (⟨⟨0, 8⟩, ⟨8, 8⟩⟩ : KeyValueLocation) ++
    encoded (⟨7⟩ : ObjectId) ++ encoded (⟨1⟩ : ObjectId) ++ encoded oneChildInfo

/-- The tree whose root is in the block. -/
def oneChildTree : Tree := ⟨⟨oneChildBlock, oneChildHeader⟩, oneChildInfo⟩

/-- The device of this image. -/
def oneChildDevice : Device := ⟨oneChildBlock.data, 0, 120, 1⟩

theorem ofBlock_oneChildBlock : Tree.ofBlock oneChildBlock = .ok oneChildTree := by
  cbv

theorem size_oneChildBlock : oneChildBlock.data.size = 120 := by
  decide +kernel

theorem blockOf_oneChildBlock :
    blockOf oneChildBlock.data 0 120 oneChildBlock.address = .ok oneChildBlock.data := by
  have hfits : 0 + (oneChildBlock.address.value.toNat + 1) * 120 ≤ oneChildBlock.data.size :=
    size_oneChildBlock.ge
  have hall : oneChildBlock.data.extract 0 120 = oneChildBlock.data := by
    rw [← size_oneChildBlock, ByteArray.extract_zero_size]
  rw [blockOf, if_pos hfits]
  exact congrArg _ hall

/-- A lookup may go down a tree of its own.  What it says of that is passed on, although the tree
    with the child is not deep. -/
theorem Tree.search_oneChild_tooDeep :
    let lookup : ObjectLookup Unit := fun _ _ => throw (.treeTooDeep maxDepth)
    blockOf oneChildBlock.data 0 120 oneChildBlock.address = .ok oneChildBlock.data ∧
      Tree.ofBlock oneChildBlock = .ok oneChildTree ∧
      oneChildTree.root.header.level.toNat < maxDepth ∧
      outcome (oneChildTree.search oneChildDevice.reader lookup (fun _ => .ok .eq) .exact) ()
        = .error (.treeTooDeep maxDepth) := by
  refine ⟨blockOf_oneChildBlock, ofBlock_oneChildBlock, by decide, ?_⟩
  cbv

end Apfs
