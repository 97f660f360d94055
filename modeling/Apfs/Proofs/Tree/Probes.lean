import Apfs.Proofs.Tree.Walk

namespace Apfs

/-!
# The probes of a search in a node

A search in a node is made with any comparison, sorted along the node or not.  It finds a place
where the comparisons turn, and it probes few entries on its way.

* `Node.floorNoting` — the search, with its probes noted down; `outcome_floorNoting` says that it is
  the search.
* `exists_after_floorBetweenNoting` — each probe halves the range that is left.
* `Node.ComparesAt`, `Node.IsLocalFloor`, `Node.Turns` — what entries compare as, where comparisons
  turn, and comparisons that turn only once.
* `floor_isLocalFloor_and_probes` — what the search finds, and after how many probes.
-/

namespace Node

/-! ### Probes -/

/-- The search of the entries from `low` up to `high`, with its probes noted down. -/
def floorBetweenNoting (n : Node) (info : TreeInfo) (order : KeyOrder) (low high : Nat)
    (found : Option (Nat × Ordering)) : EStateM Error (List Nat) (Option (Nat × Ordering)) := do
  if low < high then
    let middle := low + (high - low) / 2
    modify (· ++ [middle])
    match ← lift (n.entry middle info >>= fun e => order e.key) with
    | .gt => n.floorBetweenNoting info order low middle found
    | .eq => return some (middle, .eq)
    | .lt => n.floorBetweenNoting info order (middle + 1) high (some (middle, .lt))
  else return found
termination_by high - low

/-- The search of a node, with its probes noted down. -/
def floorNoting (n : Node) (info : TreeInfo) (order : KeyOrder) :
    EStateM Error (List Nat) (Option (Nat × Ordering)) :=
  n.floorBetweenNoting info order 0 n.size none

variable {n : Node} {info : TreeInfo} {order : KeyOrder}

/-- The search of a range is the same without its notes. -/
theorem outcome_floorBetweenNoting (low high : Nat) (found : Option (Nat × Ordering))
    (probes : List Nat) :
    outcome (n.floorBetweenNoting info order low high found) probes
      = n.floorBetween info order low high found := by
  induction hgap : high - low using Nat.strong_induction_on generalizing low high found probes with
  | h gap ih =>
    rw [floorBetweenNoting, floorBetween]
    by_cases hlt : low < high
    · rw [if_pos hlt, if_pos hlt]
      dsimp only
      rw [outcome_bind, outcome_modify, after_modify]
      dsimp only
      rw [outcome_bind, outcome_lift, after_lift]
      cases n.entry (low + (high - low) / 2) info with
      | error e => rfl
      | ok e =>
        dsimp only [bind, Except.bind]
        cases order e.key with
        | error e => rfl
        | ok o =>
          cases o with
          | lt => exact ih _ (by omega) _ _ _ _ rfl
          | eq => rfl
          | gt => exact ih _ (by omega) _ _ _ _ rfl
    · rw [if_neg hlt, if_neg hlt]
      rfl

theorem outcome_floorNoting (probes : List Nat) :
    outcome (n.floorNoting info order) probes = n.floor info order :=
  outcome_floorBetweenNoting ..

/-- **Each probe halves the range that is left.**  By induction on the number of probes that are
    enough for it, whether the search succeeds or fails. -/
theorem exists_after_floorBetweenNoting {low high k : Nat} (hgap : high - low < 2 ^ k)
    (found : Option (Nat × Ordering)) (probes : List Nat) :
    ∃ more, after (n.floorBetweenNoting info order low high found) probes = probes ++ more ∧
      more.length ≤ k := by
  induction k generalizing low high found probes with
  | zero =>
    have hnot : ¬ low < high := by omega
    rw [floorBetweenNoting, if_neg hnot]
    exact ⟨[], (List.append_nil probes).symm, Nat.le_refl 0⟩
  | succ k ih =>
    rw [floorBetweenNoting]
    by_cases hlt : low < high
    · have hpow : 2 ^ (k + 1) = 2 * 2 ^ k := pow_succ' 2 k
      rw [if_pos hlt]
      dsimp only
      generalize hmiddle : low + (high - low) / 2 = middle
      have hprobe {more : List Nat} (hmore : more.length ≤ k) :
          (middle :: more).length ≤ k + 1 := Nat.succ_le_succ hmore
      rw [after_bind, outcome_modify, after_modify]
      dsimp only
      rw [after_bind, outcome_lift, after_lift]
      cases n.entry middle info >>= fun e => order e.key with
      | error e => exact ⟨[middle], rfl, hprobe (Nat.zero_le k)⟩
      | ok o =>
        cases o with
        | lt =>
          obtain ⟨more, hafter, hmore⟩ :=
            @ih (middle + 1) high (by omega) (some (middle, .lt)) (probes ++ [middle])
          exact ⟨middle :: more, hafter.trans (List.append_assoc ..), hprobe hmore⟩
        | eq => exact ⟨[middle], rfl, hprobe (Nat.zero_le k)⟩
        | gt =>
          obtain ⟨more, hafter, hmore⟩ := @ih low middle (by omega) found (probes ++ [middle])
          exact ⟨middle :: more, hafter.trans (List.append_assoc ..), hprobe hmore⟩
    · rw [if_neg hlt]
      exact ⟨[], (List.append_nil probes).symm, Nat.zero_le _⟩

/-- A search in a node probes no more entries than the number of entries has binary digits. -/
theorem length_after_floorNoting_le :
    (after (n.floorNoting info order) []).length ≤ Nat.log2 n.size + 1 := by
  have hsize : n.size - 0 < 2 ^ (Nat.log2 n.size + 1) := Nat.lt_log2_self
  obtain ⟨more, hafter, hmore⟩ :=
    @exists_after_floorBetweenNoting n info order _ _ _ hsize none []
  unfold floorNoting
  rw [hafter, List.nil_append]
  exact hmore

/-! ### Comparisons along a node -/

/-- The entry at `i` can be read, and compares as `o`. -/
def ComparesAt (n : Node) (info : TreeInfo) (order : KeyOrder) (i : Nat) (o : Ordering) : Prop :=
  ∃ e, n.entry i info = .ok e ∧ order e.key = .ok o

/-- What a search may find: an entry that compares equal, or one that compares less and is the last
    one or in front of one that compares greater.  It finds none only if there are no entries or the
    first one compares greater. -/
structure IsLocalFloor (n : Node) (info : TreeInfo) (order : KeyOrder)
    (answer : Option (Nat × Ordering)) : Prop where
  found : ∀ i o, answer = some (i, o) → i < n.size ∧ n.ComparesAt info order i o ∧
    (o = .lt ∨ o = .eq) ∧ (o = .lt → i + 1 = n.size ∨ n.ComparesAt info order (i + 1) .gt)
  missing : answer = none → n.size = 0 ∨ n.ComparesAt info order 0 .gt

/-- The comparisons turn once along the node: some entries compare less, then at most one compares
    equal, and the others compare greater. -/
def Turns (n : Node) (info : TreeInfo) (order : KeyOrder) : Prop :=
  ∃ less equal, equal ≤ 1 ∧ ∀ i < n.size, n.ComparesAt info order i
    (if i < less then .lt else if i < less + equal then .eq else .gt)

theorem ComparesAt.unique {i : Nat} {o o' : Ordering} (h : n.ComparesAt info order i o)
    (h' : n.ComparesAt info order i o') : o = o' := by
  obtain ⟨e, hentry, ho⟩ := h
  obtain ⟨e', hentry', ho'⟩ := h'
  obtain rfl := Except.ok.inj (hentry.symm.trans hentry')
  exact Except.ok.inj (ho.symm.trans ho')

/-- The entries of a node that can all be read and compared, listed with what they compare as. -/
theorem exists_entries (h : ∀ i < n.size, ∃ o, n.ComparesAt info order i o) :
    ∃ (entries : List Entry) (orders : List Ordering), n.HasEntries info entries ∧
      entries.map (fun e => order e.key) = orders.map .ok ∧
      ∀ i o, orders[i]? = some o → n.ComparesAt info order i o := by
  have hread : ∀ i : Fin n.size, ∃ e o, n.entry i info = .ok e ∧ order e.key = .ok o := by
    intro i
    obtain ⟨o, e, hentry, ho⟩ := h i i.isLt
    exact ⟨e, o, hentry, ho⟩
  choose e o hentry ho using hread
  refine ⟨List.ofFn e, List.ofFn o, ⟨List.length_ofFn, ?_⟩, ?_, ?_⟩
  · intro i entry hi
    rw [List.getElem?_ofFn] at hi
    split at hi
    · next hlt =>
      cases hi
      exact hentry ⟨i, hlt⟩
    · cases hi
  · rw [List.map_ofFn, List.map_ofFn]
    exact congrArg List.ofFn (funext ho)
  · intro i result hi
    rw [List.getElem?_ofFn] at hi
    split at hi
    · next hlt =>
      cases hi
      exact ⟨e ⟨i, hlt⟩, hentry ⟨i, hlt⟩, ho ⟨i, hlt⟩⟩
    · cases hi

/-- A floor is one with respect to its neighbours. -/
theorem isLocalFloor_of_isFloor {orders : List Ordering} {answer : Option (Nat × Ordering)}
    (hlen : orders.length = n.size)
    (hcompares : ∀ i o, orders[i]? = some o → n.ComparesAt info order i o)
    (h : IsFloor orders answer) : n.IsLocalFloor info order answer where
  found := by
    rintro i o rfl
    obtain ⟨hget, hgt, hnext⟩ := h
    have hi : i < n.size := hlen ▸ (List.getElem?_eq_some_iff.mp hget).1
    refine ⟨hi, hcompares i o hget, ?_, fun hlt => ?_⟩
    · cases o with
      | lt => exact .inl rfl
      | eq => exact .inr rfl
      | gt => contradiction
    · by_cases hlast : i + 1 = n.size
      · exact .inl hlast
      · have hin : i + 1 < orders.length := by omega
        have hget' := List.getElem?_eq_getElem hin
        rw [hnext hlt _ hget'] at hget'
        exact .inr (hcompares _ _ hget')
  missing := by
    rintro rfl
    by_cases hempty : n.size = 0
    · exact .inl hempty
    · have hin : 0 < orders.length := by omega
      have hget := List.getElem?_eq_getElem hin
      rw [h _ hget] at hget
      exact .inr (hcompares _ _ hget)

/-- Where comparisons turn once, all entries behind what is found compare greater, and all entries
    do if nothing is found. -/
theorem IsLocalFloor.comparesAt_gt {answer : Option (Nat × Ordering)}
    (h : n.IsLocalFloor info order answer) (hturns : n.Turns info order) {j : Nat}
    (hj : j < n.size) (hbehind : ∀ i o, answer = some (i, o) → i < j) :
    n.ComparesAt info order j .gt := by
  obtain ⟨less, equal, hequal, hturns⟩ := hturns
  suffices hle : less + equal ≤ j by
    have hcompares := hturns j hj
    rwa [if_neg (by omega), if_neg (by omega)] at hcompares
  -- An entry that compares greater stands behind those that do not.
  have hgreater {i : Nat} (hi : i < n.size) (hgt : n.ComparesAt info order i .gt) :
      less + equal ≤ i := by
    have hsame := hgt.unique (hturns i hi)
    split at hsame
    · cases hsame
    · split at hsame
      · cases hsame
      · omega
  cases answer with
  | none =>
    obtain hempty | hfirst := h.missing rfl
    · omega
    · exact (hgreater (by omega) hfirst).trans (Nat.zero_le j)
  | some found =>
    obtain ⟨i, o⟩ := found
    have hij := hbehind i o rfl
    obtain ⟨hi, hcompares, rfl | rfl, hnext⟩ := h.found i o rfl
    · obtain hlast | hgt := hnext rfl
      · omega
      · exact (hgreater (by omega) hgt).trans hij
    · have hsame := hcompares.unique (hturns i hi)
      split at hsame
      · cases hsame
      · split at hsame
        · omega
        · cases hsame

/-! ### What the search finds -/

/-- **The search finds a local floor** after few probes.  It probes no more entries than their
    number has binary digits, whether it succeeds or fails.  If all entries can be read and
    compared, it finds a place where the comparisons turn; and if they turn only once, it finds the
    last entry that does not compare greater. -/
theorem floor_isLocalFloor_and_probes (n : Node) (info : TreeInfo) (order : KeyOrder) :
    outcome (n.floorNoting info order) [] = n.floor info order ∧
    (0 < n.size → (after (n.floorNoting info order) []).length ≤ Nat.log2 n.size + 1) ∧
    ((∀ i < n.size, ∃ o, n.ComparesAt info order i o) →
      ∃ answer, n.floor info order = .ok answer ∧ n.IsLocalFloor info order answer ∧
        (n.Turns info order →
          (∀ i o, answer = some (i, o) → ∀ j < n.size, i < j → n.ComparesAt info order j .gt) ∧
          (answer = none → ∀ j < n.size, n.ComparesAt info order j .gt))) := by
  refine ⟨outcome_floorNoting [], fun _ => length_after_floorNoting_le, fun hcompares => ?_⟩
  -- The comparisons need not be sorted for a floor to be found.
  obtain ⟨entries, orders, hentries, horders, hget⟩ := exists_entries hcompares
  obtain ⟨answer, hfloor, hanswer⟩ := floor_isFloor hentries horders
  have hlen : orders.length = n.size := by
    rw [← hentries.1]
    simpa using (congrArg List.length horders).symm
  have hlocal := isLocalFloor_of_isFloor hlen hget hanswer
  refine ⟨answer, hfloor, hlocal, fun hturns => ⟨?_, ?_⟩⟩
  · rintro i o rfl j hj hij
    refine hlocal.comparesAt_gt hturns hj fun i' o' h => ?_
    cases h
    exact hij
  · rintro rfl j hj
    exact hlocal.comparesAt_gt hturns hj nofun

/-- A leaf with three keys of one byte and without values. -/
def threeKeys (a b c : UInt8) : Node where
  block := ⟨⟨1⟩, ⟨(List.replicate (Layout.size NodeHeader) (0 : UInt8) ++
    [0, 0, 1, 0, 255, 255, 0, 0, 1, 0, 1, 0, 255, 255, 0, 0, 2, 0, 1, 0, 255, 255, 0, 0] ++
    [a, b, c] ++ List.replicate (Layout.size TreeInfo) (0 : UInt8)).toArray⟩⟩
  header := { (default : NodeHeader) with
    flags := NodeFlags.root.union .leaf
    keyCount := 3
    table := ⟨0, 24⟩ }

/-- Compares the byte of a key with 98. -/
def orderTo98 : KeyOrder :=
  fun key => .ok (compare (Bytes.get key 0) 98)

theorem comparesAt_threeKeys {a b c : UInt8} {i : Nat} (hi : i < 3) :
    (threeKeys a b c).ComparesAt default orderTo98 i (compare ([a, b, c].getD i 0) 98) :=
  match i, hi with
  | 0, _ => ⟨⟨⟨#[a]⟩, .empty⟩, by cbv, rfl⟩
  | 1, _ => ⟨⟨⟨#[b]⟩, .empty⟩, by cbv, rfl⟩
  | 2, _ => ⟨⟨⟨#[c]⟩, .empty⟩, by cbv, rfl⟩

set_option maxRecDepth 2000 in
/-- The keys 97, 98 and 99 turn once, and 98 is found as the first probe.  The keys 97, 99 and 98 do
    not: two probes find 97 in front of 99, and 98 is missed. -/
theorem floor_threeKeys :
    (after ((threeKeys 97 99 98).floorNoting default orderTo98) []).length ≤ 2 ∧
    (threeKeys 97 99 98).IsLocalFloor default orderTo98 (some (0, .lt)) ∧
    (threeKeys 97 98 99).IsLocalFloor default orderTo98 (some (1, .eq)) ∧
    (threeKeys 97 98 99).ComparesAt default orderTo98 2 .gt := by
  have hunsorted : (threeKeys 97 99 98).floor default orderTo98 = .ok (some (0, .lt)) := by cbv
  have hsorted : (threeKeys 97 98 99).floor default orderTo98 = .ok (some (1, .eq)) := by cbv
  have hturns : (threeKeys 97 98 99).Turns default orderTo98 := by
    refine ⟨1, 1, Nat.le_refl 1, fun i hi => ?_⟩
    change i < 3 at hi
    have hcompares := @comparesAt_threeKeys 97 98 99 i hi
    interval_cases i
    · exact hcompares
    · exact hcompares
    · exact hcompares
  obtain ⟨-, hprobes, hfloor⟩ :=
    floor_isLocalFloor_and_probes (threeKeys 97 99 98) default orderTo98
  obtain ⟨-, -, hfloor'⟩ := floor_isLocalFloor_and_probes (threeKeys 97 98 99) default orderTo98
  obtain ⟨answer, hanswer, hlocal, -⟩ := hfloor fun i hi => ⟨_, comparesAt_threeKeys hi⟩
  obtain ⟨answer', hanswer', hlocal', hbehind⟩ := hfloor' fun i hi => ⟨_, comparesAt_threeKeys hi⟩
  cases hunsorted.symm.trans hanswer
  cases hsorted.symm.trans hanswer'
  exact ⟨hprobes (by decide), hlocal, hlocal',
    (hbehind hturns).1 1 .eq rfl 2 (by decide) (by decide)⟩

end Node

end Apfs
