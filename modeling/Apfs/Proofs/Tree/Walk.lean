import Apfs.Proofs.Tree.Floor
import Apfs.Proofs.Tree.Storage

namespace Apfs

/-!
# What a walk visits

A walk hands the entries of the leaves to a visitor that keeps a state of its own.  That the walk
succeeds says two things: the part of the tree below a node holds certain entries, and the visitor
accepts them one after the other.  The first does not depend on the visitor.

* `Storage.Spans` — the entries that the part of a tree below a node holds.
* `VisitorRun` — a visitor's steps along a list of entries.
* `spans_of_walkFrom`, `walkFrom_of_spans` — a walk succeeds exactly if its part of the tree holds
  some entries and the visitor accepts them.
* `spans_of_entriesFrom`, `entriesFrom_of_spans` — the same for the entries that a walk visits.
-/

variable {σ τ : Type}

/-! ### The entries below a node -/

namespace Storage

variable (S : Storage σ) (t : Tree)

/-- Below `node` a walk that follows at most that many nodes visits `part`: for each entry of the
    node in turn, the entry itself in a leaf, and otherwise what is below the child. -/
def Spans : Nat → Node → List Entry → Prop
  | 0, _, _ => False
  | depth + 1, node, part => ∃ entries parts,
    node.HasEntries t.info entries ∧ part = parts.flatten ∧
      List.Forall₂ (fun entry part =>
        if node.header.isLeaf then part = [entry]
        else ∃ child, S.Child t node entry child ∧ Spans depth child part) entries parts

/-- The entry of a node at the depth of `Spans` holds `part`. -/
def Holds (depth : Nat) (node : Node) (entry : Entry) (part : List Entry) : Prop :=
  if node.header.isLeaf then part = [entry]
  else ∃ child, S.Child t node entry child ∧ S.Spans t depth child part

theorem spans_succ {depth : Nat} {node : Node} {part : List Entry} :
    S.Spans t (depth + 1) node part ↔ ∃ entries parts,
      node.HasEntries t.info entries ∧ part = parts.flatten ∧
        List.Forall₂ (S.Holds t depth node) entries parts :=
  Iff.rfl

end Storage

/-! ### Visitors -/

/-- Steps of a visitor from the state `a` to the state `b`, one for each of the entries. -/
def VisitorRun (step : Entry → τ → τ → Prop) : List Entry → τ → τ → Prop
  | [], a, b => a = b
  | e :: rest, a, c => ∃ b, step e a b ∧ VisitorRun step rest b c

theorem visitorRun_append {step : Entry → τ → τ → Prop} {l m : List Entry} {a c : τ} :
    VisitorRun step (l ++ m) a c ↔ ∃ b, VisitorRun step l a b ∧ VisitorRun step m b c := by
  induction l generalizing a with
  | nil => simp [VisitorRun]
  | cons e rest ih =>
    rw [List.cons_append]
    constructor
    · rintro ⟨b, hstep, h⟩
      obtain ⟨d, hrest, hm⟩ := ih.mp h
      exact ⟨d, ⟨b, hstep, hrest⟩, hm⟩
    · rintro ⟨d, ⟨b, hstep, hrest⟩, hm⟩
      exact ⟨b, hstep, ih.mpr ⟨d, hrest, hm⟩⟩

theorem visitorRun_singleton {step : Entry → τ → τ → Prop} {e : Entry} {a b : τ} :
    VisitorRun step [e] a b ↔ step e a b := by
  simp [VisitorRun]

/-- The visitor leaves the state of the reader alone and makes exactly the given steps. -/
def Makes (visit : Entry → EStateM Error (σ × τ) Unit) (step : Entry → τ → τ → Prop) : Prop :=
  ∀ e s a s' b, visit e (s, a) = .ok () (s', b) ↔ s' = s ∧ step e a b

/-- Noting down entries appends them to the list. -/
theorem makes_note :
    Makes (σ := σ) note fun (e : Entry) a b => b = a ++ [e] := by
  intro e s a s' b
  simp only [note, modify, modifyGet, MonadStateOf.modifyGet, EStateM.modifyGet,
    EStateM.Result.ok.injEq, Prod.mk.injEq, true_and]
  exact and_congr eq_comm eq_comm

theorem visitorRun_note {l a b : List Entry} :
    VisitorRun (fun (e : Entry) a b => b = a ++ [e]) l a b ↔ b = a ++ l := by
  induction l generalizing a with
  | nil => simp [VisitorRun, eq_comm]
  | cons e rest ih => simp [VisitorRun, ih]

/-! ### Walks -/

/-- What a walk does at the entry of a node with the given index. -/
def Tree.walkEntry (t : Tree) (reader : BlockReader σ) (lookup : ObjectLookup σ)
    (visit : Entry → EStateM Error σ Unit) (depth : Nat) (node : Node) (index : Nat) :
    EStateM Error σ Unit := do
  let entry ← lift (node.entry index t.info)
  if node.header.isLeaf then visit entry
  else
    let child ← t.child reader lookup node entry
    t.walkFrom reader lookup visit depth child

theorem walkFrom_succ (t : Tree) (reader : BlockReader σ) (lookup : ObjectLookup σ)
    (visit : Entry → EStateM Error σ Unit) (depth : Nat) (node : Node) :
    t.walkFrom reader lookup visit (depth + 1) node
      = (List.range node.size).forM (t.walkEntry reader lookup visit depth node) := rfl

/-- Every member of the first of two related lists is related to one of the second. -/
theorem exists_mem_of_forall₂ {α β : Type} {R : α → β → Prop} {l : List α} {m : List β}
    (h : List.Forall₂ R l m) {a : α} (ha : a ∈ l) : ∃ b ∈ m, R a b := by
  induction h with
  | nil => cases ha
  | @cons x y l m hxy _ ih =>
    rcases List.mem_cons.mp ha with rfl | ha
    · exact ⟨y, List.mem_cons_self, hxy⟩
    · obtain ⟨b, hb, hab⟩ := ih ha
      exact ⟨b, List.mem_cons_of_mem _ hb, hab⟩

/-- What holds of any two members of a list holds, in its way, of those of a related list. -/
theorem pairwise_of_forall₂ {α β : Type} {R : α → β → Prop} {P : β → β → Prop}
    {Q : α → α → Prop} {l : List α} {m : List β} (h : List.Forall₂ R l m) (hpair : m.Pairwise P)
    (himp : ∀ ⦃a b x y⦄, R a x → R b y → P x y → Q a b) : l.Pairwise Q := by
  induction h with
  | nil => exact .nil
  | @cons a x l m hax hrest ih =>
    obtain ⟨hhead, htail⟩ := List.pairwise_cons.mp hpair
    refine List.pairwise_cons.mpr ⟨fun b hb => ?_, ih htail⟩
    obtain ⟨y, hy, hby⟩ := exists_mem_of_forall₂ hrest hb
    exact himp hax hby (hhead y hy)

/-- A list of the entries at all indexes of a node is the list of its entries. -/
theorem hasEntries_iff {n : Node} {info : TreeInfo} {entries : List Entry} :
    n.HasEntries info entries ↔
      List.Forall₂ (fun i e => n.entry i info = .ok e) (List.range n.size) entries := by
  have hrange : (List.range n.size).length = n.size := List.length_range
  rw [List.forall₂_iff_get, Node.HasEntries]
  constructor
  · rintro ⟨hlen, hentry⟩
    refine ⟨hrange.trans hlen.symm, fun i _ hi => ?_⟩
    rw [List.get_eq_getElem, List.getElem_range]
    exact hentry i _ (List.getElem?_eq_getElem hi)
  · rintro ⟨hlen, hentry⟩
    refine ⟨hlen.symm.trans hrange, fun i e he => ?_⟩
    obtain ⟨hi, rfl⟩ := List.getElem?_eq_some_iff.mp he
    have h := hentry i (hlen ▸ hi) hi
    rwa [List.get_eq_getElem, List.getElem_range] at h

section

variable {S : Storage σ} {t : Tree} {visit : Entry → EStateM Error (σ × τ) Unit}
  {step : Entry → τ → τ → Prop}

/-- **A walk that succeeds** has visited what is below its node.  By induction on the number of
    nodes that may be followed, and for each node along its indexes. -/
theorem spans_of_walkFrom (hvisit : Makes visit step) {depth : Nat} {node : Node} {s s' : σ}
    {a b : τ} (hs : S.Valid s)
    (h : t.walkFrom (S.reader.extend τ) (S.lookup.extend τ) visit depth node (s, a)
      = .ok () (s', b)) :
    S.Valid s' ∧ ∃ part, S.Spans t depth node part ∧ VisitorRun step part a b := by
  induction depth generalizing node s s' a b with
  | zero => cases h
  | succ depth ih =>
    rw [walkFrom_succ] at h
    -- At one index, the walk visits what the entry holds.
    have one : ∀ {index : Nat} {s s' : σ} {a b : τ}, S.Valid s →
        t.walkEntry (S.reader.extend τ) (S.lookup.extend τ) visit depth node index (s, a)
          = .ok () (s', b) →
        S.Valid s' ∧ ∃ entry part, node.entry index t.info = .ok entry ∧
          S.Holds t depth node entry part ∧ VisitorRun step part a b := by
      intro index s s' a b hs h
      unfold Tree.walkEntry at h
      obtain ⟨entry, p, hread, h⟩ := bind_eq_ok_iff.mp h
      obtain ⟨hentry, rfl⟩ := lift_eq_ok_iff.mp hread
      by_cases hleaf : node.header.isLeaf
      · rw [if_pos hleaf] at h
        obtain ⟨rfl, hstep⟩ := (hvisit ..).mp h
        refine ⟨hs, entry, [entry], hentry, ?_, visitorRun_singleton.mpr hstep⟩
        rw [Storage.Holds, if_pos hleaf]
      · rw [if_neg hleaf] at h
        obtain ⟨child, p, hchild, h⟩ := bind_eq_ok_iff.mp h
        obtain ⟨hout, hafter⟩ := eq_ok_iff.mp hchild
        obtain ⟨heq, s₁, hs₁, hafter'⟩ := S.child_extend t node entry a hs hs
        rw [hafter'] at hafter
        subst hafter
        obtain ⟨hs', part, hspans, hrun⟩ := ih hs₁ h
        refine ⟨hs', entry, part, hentry, ?_, hrun⟩
        rw [Storage.Holds, if_neg hleaf]
        exact ⟨child, ⟨s, hs, heq ▸ hout⟩, hspans⟩
    -- Along any list of indexes, the walk visits what the entries hold one after the other.
    have all : ∀ (indexes : List Nat) {s : σ} {a : τ}, S.Valid s →
        indexes.forM (t.walkEntry (S.reader.extend τ) (S.lookup.extend τ) visit depth node) (s, a)
          = .ok () (s', b) →
        S.Valid s' ∧ ∃ entries parts,
          List.Forall₂ (fun i e => node.entry i t.info = .ok e) indexes entries ∧
            List.Forall₂ (S.Holds t depth node) entries parts ∧ VisitorRun step parts.flatten a b := by
      intro indexes
      induction indexes with
      | nil =>
        rintro s a hs h
        cases h
        exact ⟨hs, [], [], .nil, .nil, rfl⟩
      | cons index indexes ihl =>
        intro s a hs h
        obtain ⟨_, ⟨s₁, a₁⟩, hone, hrest⟩ := bind_eq_ok_iff.mp h
        obtain ⟨hs₁, entry, part, hentry, hholds, hrun⟩ := one hs hone
        obtain ⟨hs', entries, parts, hentries, hparts, hrun'⟩ := ihl hs₁ hrest
        refine ⟨hs', entry :: entries, part :: parts, .cons hentry hentries,
          .cons hholds hparts, ?_⟩
        rw [List.flatten_cons, visitorRun_append]
        exact ⟨a₁, hrun, hrun'⟩
    obtain ⟨hs', entries, parts, hentries, hparts, hrun⟩ := all _ hs h
    exact ⟨hs', parts.flatten, ⟨entries, parts, hasEntries_iff.mpr hentries, rfl, hparts⟩, hrun⟩

/-- **A walk succeeds** if its part of the tree holds some entries and the visitor accepts them. -/
theorem walkFrom_of_spans (hvisit : Makes visit step) {depth : Nat} {node : Node}
    {part : List Entry} {s : σ} {a b : τ} (hs : S.Valid s) (hspans : S.Spans t depth node part)
    (hrun : VisitorRun step part a b) :
    ∃ s', S.Valid s' ∧
      t.walkFrom (S.reader.extend τ) (S.lookup.extend τ) visit depth node (s, a)
        = .ok () (s', b) := by
  induction depth generalizing node part s a b with
  | zero => exact hspans.elim
  | succ depth ih =>
    obtain ⟨entries, parts, hentries, rfl, hparts⟩ := (S.spans_succ t).mp hspans
    clear hspans
    rw [hasEntries_iff] at hentries
    rw [walkFrom_succ]
    have one : ∀ {index : Nat} {entry : Entry} {part : List Entry} {s : σ} {a b : τ}, S.Valid s →
        node.entry index t.info = .ok entry → S.Holds t depth node entry part →
        VisitorRun step part a b → ∃ s', S.Valid s' ∧
          t.walkEntry (S.reader.extend τ) (S.lookup.extend τ) visit depth node index (s, a)
            = .ok () (s', b) := by
      intro index entry part s a b hs hentry hholds hrun
      unfold Tree.walkEntry
      simp only [bind_eq_ok_iff, lift_eq_ok_iff, hentry]
      by_cases hleaf : node.header.isLeaf
      · rw [Storage.Holds, if_pos hleaf] at hholds
        subst hholds
        refine ⟨s, hs, entry, (s, a), ⟨rfl, rfl⟩, ?_⟩
        rw [if_pos hleaf]
        exact (hvisit ..).mpr ⟨rfl, visitorRun_singleton.mp hrun⟩
      · rw [Storage.Holds, if_neg hleaf] at hholds
        obtain ⟨child, hchild, hspans⟩ := hholds
        obtain ⟨hout, s₁, hs₁, hafter⟩ := S.child_extend t node entry a hs hs
        obtain ⟨s', hs', h⟩ := ih hs₁ hspans hrun
        refine ⟨s', hs', entry, (s, a), ⟨rfl, rfl⟩, ?_⟩
        rw [if_neg hleaf, bind_eq_ok_iff]
        exact ⟨child, (s₁, a), eq_ok_iff.mpr ⟨hout.trans (hchild.outcome_eq hs), hafter⟩, h⟩
    generalize List.range node.size = indexes at hentries ⊢
    induction hentries generalizing parts s a with
    | nil =>
      cases hparts
      exact ⟨s, hs, congrArg (fun b => EStateM.Result.ok () (s, b)) hrun⟩
    | cons hentry _ ihl =>
      cases hparts with
      | cons hholds hparts =>
        rw [List.flatten_cons, visitorRun_append] at hrun
        obtain ⟨a₁, hrun, hrun'⟩ := hrun
        obtain ⟨s₁, hs₁, hone⟩ := one hs hentry hholds hrun
        obtain ⟨s', hs', hrest⟩ := ihl hs₁ _ hparts hrun'
        exact ⟨s', hs', bind_eq_ok_iff.mpr ⟨(), (s₁, a₁), hone, hrest⟩⟩

/-- The entries that a walk visits are those below its node. -/
theorem spans_of_entriesFrom {depth : Nat} {node : Node} {part : List Entry} {s s' : σ}
    (hs : S.Valid s) (h : S.entriesFrom t depth node s = .ok part s') :
    S.Spans t depth node part := by
  obtain ⟨-, part', hspans, hrun⟩ := spans_of_walkFrom makes_note hs (gather_eq_ok_iff.mp h)
  rw [visitorRun_note, List.nil_append] at hrun
  exact hrun ▸ hspans

/-- A walk visits the entries below its node. -/
theorem entriesFrom_of_spans {depth : Nat} {node : Node} {part : List Entry} {s : σ}
    (hs : S.Valid s) (h : S.Spans t depth node part) :
    ∃ s', S.Valid s' ∧ S.entriesFrom t depth node s = .ok part s' := by
  obtain ⟨s', hs', hwalk⟩ := walkFrom_of_spans makes_note hs h (visitorRun_note.mpr rfl)
  exact ⟨s', hs', gather_eq_ok_iff.mpr hwalk⟩

end

end Apfs
