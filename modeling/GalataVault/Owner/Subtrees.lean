import Mathlib.Algebra.Order.Ring.Nat
import GalataVault.Owner.Discovery

/-!
# The subtree a rediscovery finds

Whatever the children records of the vaults are, a sealed key that leads back to an
ancestor's vault included, the nodes below a root that they lead to are finitely many: a
path has at most four segments. Each is reached along one path only, so its key and
whether that is sealed are the ones of its entry. A rediscovery under a root below which
no key is held ends, and finds exactly these; the ones whose vault does not open stand
where they were found, with what was known below them.
-/

namespace GalataVault.Owner

variable {κ ν : Type} [NodeKeys κ ν]

/-! ## The call -/

section

variable [DecidableEq ν]

/-- `walkFrom` where the children record of a vault that opens may fail to be read. -/
def walkReading (unread : ν → Option OwnerError) (owner : Local κ ν) (root : EnvPath) :
    Nat → Walk κ ν → List (Visit κ) → Except OwnerError (Walk κ ν)
  | 0, _, _ => .error .unfinished
  | _ + 1, walk, [] => .ok walk
  | nodes + 1, walk, visit :: rest =>
    match openNode owner walk.vaults visit with
    | none =>
      if visit.path = root then .error .vaultNotFound
      else
        walkReading unread owner root nodes
          { walk with
            found := Function.update walk.found visit.path (some ⟨NodeKeys.vaultId visit.key, visit.isSealed⟩)
            unreachable := walk.unreachable ++ [visit.path] } rest
    | some (key, isSealed, vaults) =>
      match unread (NodeKeys.vaultId key) with
      | some failure => .error failure
      | none =>
        match vaults (NodeKeys.vaultId key) with
        | none => .error .vaultNotFound
        | some record =>
          walkReading unread owner root nodes
            { vaults := vaults
              found := Function.update walk.found visit.path (some ⟨NodeKeys.vaultId key, isSealed⟩)
              unreachable := walk.unreachable
              opened := (visit.path, key) :: walk.opened } ((visitsBelow visit.path key record).reverse ++ rest)

/-- Rediscover the subtree under a root from its key alone: the nodes that could not be opened,
and what is known of the project after the call. -/
def discoverCall (unread : ν → Option OwnerError) (nodes : Nat) (owner : Local κ ν) (vaults : Vaults κ ν)
    (root : EnvPath) (key : κ) : Except OwnerError (List EnvPath) × Local κ ν :=
  let rootSealed := (owner.tree root).any (·.isSealed)
  match walkReading unread owner root nodes ⟨vaults, fun _ => none, [], []⟩ [⟨root, key, rootSealed, none⟩] with
  | .error failure => (.error failure, owner)
  | .ok walk => (.ok walk.unreachable, { owner with tree := replanted owner.tree root walk })

theorem walkReading_all (owner : Local κ ν) (root : EnvPath) (nodes : Nat) (walk : Walk κ ν) (pending : List (Visit κ)) :
    walkReading (fun _ => none) owner root nodes walk pending = walkFrom owner root nodes walk pending := by
  induction nodes generalizing walk pending with
  | zero => rfl
  | succ nodes inductionHypothesis =>
    cases pending with
    | nil => rfl
    | cons visit rest =>
      rw [walkReading, walkFrom]
      cases openNode owner walk.vaults visit with
      | none =>
        dsimp only
        rw [inductionHypothesis]
      | some opened =>
        obtain ⟨key, isSealed, vaults⟩ := opened
        dsimp only
        cases vaults (NodeKeys.vaultId key) with
        | none => rfl
        | some record => exact inductionHypothesis ..

/-- Where every record can be read, the call is the one that rediscoveries are made of. -/
theorem discoverCall_of_discoverFrom {nodes : Nat} {owner after : Local κ ν} {vaults : Vaults κ ν} {root : EnvPath} {key : κ}
    {walk : Walk κ ν} (found : discoverFrom nodes owner vaults root key = .ok (after, walk)) :
    discoverCall (fun _ => none) nodes owner vaults root key = (.ok walk.unreachable, after) := by
  obtain ⟨rfl, walked⟩ := discoverFrom_ok found
  unfold discoverCall
  dsimp only
  rw [walkReading_all, walked]

end

/-! ## The nodes a subtree spans -/

/-- The nodes at and below a root that the records of opened vaults lead to, within the depth
limit; the key of each and whether that is sealed. -/
inductive Spans (vaults : Vaults κ ν) (root : EnvPath) (rootKey : κ) (rootSealed : Bool) : EnvPath → κ → Bool → Prop where
  | root : Spans vaults root rootKey rootSealed root rootKey rootSealed
  | entry {q p : EnvPath} {parentKey k : κ} {parentSealed : Bool} {record : ChildrenRecord κ} {seg : String}
      {e : ChildEntry κ} (spans : Spans vaults root rootKey rootSealed q parentKey parentSealed)
      (opens : vaults (NodeKeys.vaultId parentKey) = some record) (listed : record.get seg = some e)
      (made : q.child seg = some p) (found : e.mode.key parentKey seg = some k) :
      Spans vaults root rootKey rootSealed p k e.mode.isSealed

section

variable {vaults : Vaults κ ν} {root : EnvPath} {rootKey : κ} {rootSealed : Bool}

theorem Spans.under {p : EnvPath} {k : κ} {s : Bool} (spans : Spans vaults root rootKey rootSealed p k s) :
    p.startsWith root = true := by
  induction spans with
  | root => exact root.startsWith_refl
  | entry _ _ _ made _ inductionHypothesis =>
    exact EnvPath.startsWith_trans (EnvPath.startsWith_child made) inductionHypothesis

/-- A node is reached along its path only: its key and its flag are determined. -/
theorem Spans.unique {p : EnvPath} {k k' : κ} {s s' : Bool} (spans : Spans vaults root rootKey rootSealed p k s)
    (again : Spans vaults root rootKey rootSealed p k' s') : k = k' ∧ s = s' := by
  induction spans generalizing k' s' with
  | root =>
    cases again with
    | root => exact ⟨rfl, rfl⟩
    | entry spans _ _ made _ => exact absurd rfl (EnvPath.child_ne_root made spans.under)
  | entry spans opens listed made found inductionHypothesis =>
    cases again with
    | root => exact absurd rfl (EnvPath.child_ne_root made spans.under)
    | entry spans' opens' listed' made' found' =>
      obtain ⟨rfl, rfl⟩ := EnvPath.child_injective made made'
      obtain ⟨rfl, _⟩ := inductionHypothesis spans'
      obtain rfl := Option.some.inj (opens.symm.trans opens')
      obtain rfl := Option.some.inj (listed.symm.trans listed')
      exact ⟨Option.some.inj (found.symm.trans found'), rfl⟩

/-- A node is reached through the nodes above it, the vault of each of which is open. -/
theorem Spans.through {p u : EnvPath} {k : κ} {s : Bool} (spans : Spans vaults root rootKey rootSealed p k s)
    (above : u.startsWith root = true) (under : p.startsWith u = true) (strict : p ≠ u) :
    ∃ ku su record seg e child kc, Spans vaults root rootKey rootSealed u ku su ∧
      vaults (NodeKeys.vaultId ku) = some record ∧ record.get seg = some e ∧ u.child seg = some child ∧
      e.mode.key ku seg = some kc ∧ p.startsWith child = true := by
  induction spans with
  | root => exact absurd (EnvPath.startsWith_antisymm under above) strict
  | @entry q p parentKey k parentSealed record seg e spans opens listed made found inductionHypothesis =>
    obtain same | beneath := EnvPath.startsWith_parent made under
    · exact absurd same strict
    · by_cases here : q = u
      · subst here
        exact ⟨parentKey, parentSealed, record, seg, e, p, k, spans, opens, listed, made, found, p.startsWith_refl⟩
      · obtain ⟨ku, su, record', seg', e', child, kc, spans', opens', listed', made', found', through⟩ :=
          inductionHypothesis beneath here
        exact ⟨ku, su, record', seg', e', child, kc, spans', opens', listed', made', found',
          EnvPath.startsWith_trans (EnvPath.startsWith_child made) through⟩

/-- Nothing is reached below a node whose vault does not open. -/
theorem Spans.not_below {p u : EnvPath} {k ku : κ} {s su : Bool} (spans : Spans vaults root rootKey rootSealed p k s)
    (closed : Spans vaults root rootKey rootSealed u ku su) (missing : vaults (NodeKeys.vaultId ku) = none)
    (under : p.startsWith u = true) : p = u := by
  by_contra strict
  obtain ⟨k', s', record, _, _, _, _, spans', opens, _⟩ := spans.through closed.under under strict
  obtain ⟨rfl, _⟩ := closed.unique spans'
  rw [missing] at opens
  cases opens

end

/-! ## The walk -/

section

/-- What a walk knows: the nodes it has found are spanned, each with its key's vault; the ones
that did not open are among them; and every spanned node is found or below a pending one. -/
structure Spanning (vaults : Vaults κ ν) (root : EnvPath) (rootKey : κ) (rootSealed : Bool) (walk : Walk κ ν)
    (pending : List (Visit κ)) : Prop where
  same : walk.vaults = vaults
  found : ∀ p node, walk.found p = some node →
    ∃ k s, Spans vaults root rootKey rootSealed p k s ∧ node = ⟨NodeKeys.vaultId k, s⟩
  unreachable : ∀ u ∈ walk.unreachable, ∃ k s, Spans vaults root rootKey rootSealed u k s ∧ vaults (NodeKeys.vaultId k) = none
  visits : ∀ visit ∈ pending, Spans vaults root rootKey rootSealed visit.path visit.key visit.isSealed ∧
    (visit.path = root → visit.parentKey = none)
  covered : ∀ p k s, Spans vaults root rootKey rootSealed p k s →
    (walk.found p = some ⟨NodeKeys.vaultId k, s⟩ ∧ (vaults (NodeKeys.vaultId k) = none → p ∈ walk.unreachable)) ∨
      ∃ visit ∈ pending, p.startsWith visit.path = true

variable {vaults : Vaults κ ν} {root : EnvPath} {rootKey : κ} {rootSealed : Bool} {walk : Walk κ ν} {visit : Visit κ}
  {rest : List (Visit κ)}

/-- A walk after a visit that did not open. -/
def Walk.missed (walk : Walk κ ν) (visit : Visit κ) : Walk κ ν :=
  { walk with
    found := Function.update walk.found visit.path (some ⟨NodeKeys.vaultId visit.key, visit.isSealed⟩)
    unreachable := walk.unreachable ++ [visit.path] }

/-- A walk after a visit that opened with its own key. -/
def Walk.entered (walk : Walk κ ν) (visit : Visit κ) : Walk κ ν :=
  { walk with
    found := Function.update walk.found visit.path (some ⟨NodeKeys.vaultId visit.key, visit.isSealed⟩)
    opened := (visit.path, visit.key) :: walk.opened }

theorem spanning_begins (vaults : Vaults κ ν) (root : EnvPath) (rootKey : κ) (rootSealed : Bool) :
    Spanning vaults root rootKey rootSealed ⟨vaults, fun _ => none, [], []⟩ [⟨root, rootKey, rootSealed, none⟩] where
  same := rfl
  found := by
    intro p node found
    cases found
  unreachable := by simp
  visits := by
    intro visit member
    obtain rfl := List.mem_singleton.mp member
    exact ⟨.root, fun _ => rfl⟩
  covered := fun p k s spans => .inr ⟨_, List.mem_singleton_self _, spans.under⟩

/-- The node that is visited is found with its own key's vault, and the others stay found. -/
theorem Spanning.found_update (spanning : Spanning vaults root rootKey rootSealed walk (visit :: rest)) {p : EnvPath}
    {node : TreeNode ν}
    (found : Function.update walk.found visit.path (some ⟨NodeKeys.vaultId visit.key, visit.isSealed⟩) p = some node) :
    ∃ k s, Spans vaults root rootKey rootSealed p k s ∧ node = ⟨NodeKeys.vaultId k, s⟩ := by
  by_cases here : p = visit.path
  · subst here
    rw [Function.update_self] at found
    exact ⟨_, _, (spanning.visits visit List.mem_cons_self).1, (Option.some.inj found).symm⟩
  · rw [Function.update_of_ne here] at found
    exact spanning.found p node found

/-- A node that was found is found after a visit, and so is the visited one. -/
theorem Spanning.kept (spanning : Spanning vaults root rootKey rootSealed walk (visit :: rest)) {p : EnvPath} {k : κ}
    {s : Bool} (spans : Spans vaults root rootKey rootSealed p k s)
    (before : p = visit.path ∨ walk.found p = some ⟨NodeKeys.vaultId k, s⟩) :
    Function.update walk.found visit.path (some ⟨NodeKeys.vaultId visit.key, visit.isSealed⟩) p =
      some ⟨NodeKeys.vaultId k, s⟩ := by
  by_cases here : p = visit.path
  · subst here
    obtain ⟨rfl, rfl⟩ := (spanning.visits visit List.mem_cons_self).1.unique spans
    exact Function.update_self ..
  · rw [Function.update_of_ne here]
    exact before.resolve_left here

/-- A visit whose vault does not open. -/
theorem Spanning.misses (spanning : Spanning vaults root rootKey rootSealed walk (visit :: rest))
    (missing : vaults (NodeKeys.vaultId visit.key) = none) :
    Spanning vaults root rootKey rootSealed (walk.missed visit) rest where
  same := spanning.same
  found := fun p node found => spanning.found_update found
  unreachable := by
    intro u member
    obtain before | here := List.mem_append.mp member
    · exact spanning.unreachable u before
    · obtain rfl := List.mem_singleton.mp here
      exact ⟨_, _, (spanning.visits visit List.mem_cons_self).1, missing⟩
  visits := fun other member => spanning.visits other (List.mem_cons_of_mem _ member)
  covered := by
    intro p k s spans
    obtain ⟨found, closed⟩ | ⟨other, member, under⟩ := spanning.covered p k s spans
    · exact .inl ⟨spanning.kept spans (.inr found), fun none => List.mem_append_left _ (closed none)⟩
    · obtain rfl | later := List.mem_cons.mp member
      · obtain rfl := spans.not_below (spanning.visits other List.mem_cons_self).1 missing under
        exact .inl ⟨spanning.kept spans (.inl rfl), fun _ => List.mem_append_right _ (List.mem_singleton_self _)⟩
      · exact .inr ⟨other, later, under⟩

/-- A visit whose vault opens: its children are pending. -/
theorem Spanning.opens (spanning : Spanning vaults root rootKey rootSealed walk (visit :: rest)) {record : ChildrenRecord κ}
    (there : vaults (NodeKeys.vaultId visit.key) = some record) :
    Spanning vaults root rootKey rootSealed (walk.entered visit)
      ((visitsBelow visit.path visit.key record).reverse ++ rest) where
  same := spanning.same
  found := fun p node found => spanning.found_update found
  unreachable := spanning.unreachable
  visits := by
    intro other member
    obtain below | later := List.mem_append.mp member
    · obtain ⟨e, listed, given⟩ := List.mem_filterMap.mp (List.mem_reverse.mp below)
      obtain ⟨made, key, _, flag⟩ := visitOf_spec given
      have here := (spanning.visits visit List.mem_cons_self).1
      refine ⟨?_, fun same => absurd same (EnvPath.child_ne_root made here.under)⟩
      rw [flag]
      exact .entry here there (ChildrenRecord.get_of_mem listed) made key
    · exact spanning.visits other (List.mem_cons_of_mem _ later)
  covered := by
    intro p k s spans
    have here := (spanning.visits visit List.mem_cons_self).1
    obtain ⟨found, closed⟩ | ⟨other, member, under⟩ := spanning.covered p k s spans
    · exact .inl ⟨spanning.kept spans (.inr found), closed⟩
    · obtain rfl | later := List.mem_cons.mp member
      · by_cases same : p = other.path
        · subst same
          obtain ⟨rfl, rfl⟩ := here.unique spans
          refine .inl ⟨spanning.kept spans (.inl rfl), fun none => ?_⟩
          rw [there] at none
          cases none
        · obtain ⟨ku, su, record', seg, e, child, kc, spans', opens, listed, made, found, through⟩ :=
            spans.through here.under under same
          obtain ⟨rfl, _⟩ := here.unique spans'
          obtain rfl := Option.some.inj (there.symm.trans opens)
          obtain rfl := ChildrenRecord.get_seg listed
          have given : visitOf other.path other.key e = some ⟨child, kc, e.mode.isSealed, some other.key⟩ := by
            rw [visitOf, made, found]
            rfl
          have below : (⟨child, kc, e.mode.isSealed, some other.key⟩ : Visit κ) ∈
              (visitsBelow other.path other.key record).reverse :=
            List.mem_reverse.mpr (List.mem_filterMap.mpr ⟨e, List.mem_of_find?_eq_some listed, given⟩)
          exact .inr ⟨_, List.mem_append_left _ below, through⟩
      · exact .inr ⟨other, List.mem_append_right _ later, under⟩

/-- No other key is held for a node below the root that is reached and does not open. -/
def Unheld (owner : Local κ ν) (vaults : Vaults κ ν) (root : EnvPath) (rootKey : κ) (rootSealed : Bool) : Prop :=
  ∀ p k s, Spans vaults root rootKey rootSealed p k s → vaults (NodeKeys.vaultId k) = none → p ≠ root →
    ∀ held, owner.keys p = some held → NodeKeys.vaultId held = NodeKeys.vaultId k

/-- A visit that does not open has no other key held for it. -/
theorem Spanning.unheld {owner : Local κ ν} {visit : Visit κ} {rest : List (Visit κ)}
    (spanning : Spanning vaults root rootKey rootSealed walk (visit :: rest))
    (unheld : Unheld owner vaults root rootKey rootSealed) (missing : vaults (NodeKeys.vaultId visit.key) = none) :
    visit.parentKey = none ∨ ∀ held, owner.keys visit.path = some held → NodeKeys.vaultId held = NodeKeys.vaultId visit.key := by
  obtain ⟨spans, begins⟩ := spanning.visits visit List.mem_cons_self
  by_cases here : visit.path = root
  · exact .inl (begins here)
  · exact .inr (unheld _ _ _ spans missing here)

/-- A visit that does not open is not of the root. -/
theorem Spanning.not_root {visit : Visit κ} {rest : List (Visit κ)}
    (spanning : Spanning vaults root rootKey rootSealed walk (visit :: rest))
    (opens : (vaults (NodeKeys.vaultId rootKey)).isSome = true) (missing : vaults (NodeKeys.vaultId visit.key) = none) :
    visit.path ≠ root := by
  intro here
  have spans := (spanning.visits visit List.mem_cons_self).1
  rw [here] at spans
  obtain ⟨same, _⟩ := Spans.root.unique spans
  rw [same, missing] at opens
  cases opens

/-! ## How many nodes there are -/

/-- How many nodes a visit leads to, itself included, that many levels down. -/
def weightFrom (vaults : Vaults κ ν) : Nat → Visit κ → Nat
  | 0, _ => 1
  | levels + 1, visit =>
    match vaults (NodeKeys.vaultId visit.key) with
    | none => 1
    | some record => 1 + ((visitsBelow visit.path visit.key record).map (weightFrom vaults levels)).sum

/-- How many nodes a visit leads to within the depth limit. -/
def weight (vaults : Vaults κ ν) (visit : Visit κ) : Nat := weightFrom vaults (maxDepth - visit.path.depth) visit

theorem weight_pos (vaults : Vaults κ ν) (visit : Visit κ) : 0 < weight vaults visit := by
  unfold weight
  cases maxDepth - visit.path.depth with
  | zero => exact Nat.one_pos
  | succ levels =>
    rw [weightFrom]
    split
    · exact Nat.one_pos
    · omega

/-- A visit that opens leads to itself and to what its children lead to. -/
theorem weight_opens {record : ChildrenRecord κ} (there : vaults (NodeKeys.vaultId visit.key) = some record) :
    weight vaults visit = 1 + ((visitsBelow visit.path visit.key record).map (weight vaults)).sum := by
  unfold weight
  have levels : ∀ child ∈ visitsBelow visit.path visit.key record, child.path.depth = visit.path.depth + 1 := by
    intro child member
    obtain ⟨e, _, given⟩ := List.mem_filterMap.mp member
    have made := (visitOf_spec given).1
    rw [EnvPath.depth, EnvPath.child_segments made, List.length_append]
    rfl
  cases below : maxDepth - visit.path.depth with
  | zero =>
    -- The node is as deep as one may be, so none of its children is.
    have childless : visitsBelow visit.path visit.key record = [] := by
      refine List.eq_nil_iff_forall_not_mem.mpr fun child member => ?_
      have deep := levels child member
      have bounded : child.path.depth ≤ maxDepth := child.path.bounded
      omega
    rw [childless]
    rfl
  | succ left =>
    have same : (visitsBelow visit.path visit.key record).map (weightFrom vaults left) =
        (visitsBelow visit.path visit.key record).map fun child => weightFrom vaults (maxDepth - child.path.depth) child := by
      refine List.map_congr_left fun child member => ?_
      rw [levels child member]
      congr 1
      omega
    rw [weightFrom, there]
    dsimp only
    rw [same]

/-! ## The tree that is found -/

/-- The tree after a rediscovery: below the root, the nodes spanned, each with the vault of its
key and the flag of its entry, and what was known below a node that did not open; elsewhere,
what was known. -/
structure Replants (vaults : Vaults κ ν) (before after : Local κ ν) (root : EnvPath) (rootKey : κ)
    (unreachable : List EnvPath) : Prop where
  rest : after = { before with tree := after.tree }
  below : ∀ p, p.startsWith root = true → ∀ node, after.tree p = some node ↔
    (∃ k s, Spans vaults root rootKey ((before.tree root).any (·.isSealed)) p k s ∧ node = ⟨NodeKeys.vaultId k, s⟩) ∨
      before.tree p = some node ∧ ∃ u ∈ unreachable, p ≠ u ∧ p.startsWith u = true
  elsewhere : ∀ p, p.startsWith root = false → after.tree p = before.tree p
  unopened : ∀ u, u ∈ unreachable ↔
    ∃ k s, Spans vaults root rootKey ((before.tree root).any (·.isSealed)) u k s ∧ vaults (NodeKeys.vaultId k) = none

/-- What is found when every node spanned was visited. -/
theorem Spanning.replants {before : Local κ ν}
    (spanning : Spanning vaults root rootKey ((before.tree root).any (·.isSealed)) walk []) :
    Replants vaults before { before with tree := replanted before.tree root walk } root rootKey walk.unreachable := by
  have complete : ∀ p k s, Spans vaults root rootKey ((before.tree root).any (·.isSealed)) p k s →
      walk.found p = some ⟨NodeKeys.vaultId k, s⟩ ∧ (vaults (NodeKeys.vaultId k) = none → p ∈ walk.unreachable) := by
    intro p k s spans
    obtain found | ⟨visit, member, _⟩ := spanning.covered p k s spans
    · exact found
    · cases member
  refine ⟨rfl, fun p under node => ?_, fun p outside => ?_, fun u => ⟨spanning.unreachable u, ?_⟩⟩
  · dsimp only [replanted]
    cases found : walk.found p with
    | some other =>
      obtain ⟨k, s, spans, rfl⟩ := spanning.found p other found
      constructor
      · intro same
        exact .inl ⟨k, s, spans, (Option.some.inj same).symm⟩
      · rintro (⟨k', s', spans', rfl⟩ | ⟨_, u, member, strict, beneath⟩)
        · obtain ⟨rfl, rfl⟩ := spans.unique spans'
          rfl
        · -- Nothing is found below a node that did not open.
          obtain ⟨ku, su, closed, missing⟩ := spanning.unreachable u member
          exact absurd (spans.not_below closed missing beneath) strict
    | none =>
      have unspanned : ¬ ∃ k s, Spans vaults root rootKey ((before.tree root).any (·.isSealed)) p k s ∧
          node = ⟨NodeKeys.vaultId k, s⟩ := by
        rintro ⟨k, s, spans, _⟩
        rw [(complete p k s spans).1] at found
        cases found
      simp only [under, unspanned, Bool.not_true, Bool.false_or, false_or, List.any_eq_true, Bool.and_eq_true,
        decide_eq_true_eq, Option.ite_none_right_eq_some]
      exact and_comm
  · dsimp only [replanted]
    cases found : walk.found p with
    | some other =>
      obtain ⟨k, s, spans, _⟩ := spanning.found p other found
      rw [spans.under] at outside
      cases outside
    | none => simp only [outside, Bool.not_false, Bool.true_or, if_true]
  · rintro ⟨k, s, spans, missing⟩
    exact (complete u k s spans).2 missing

end

/-! ## The walk is followed to its end -/

section

variable [DecidableEq ν] {vaults : Vaults κ ν} {root : EnvPath} {rootKey : κ} {rootSealed : Bool} {walk : Walk κ ν}
  {visit : Visit κ} {rest : List (Visit κ)} {owner : Local κ ν} {unread : ν → Option OwnerError}

/-- A node whose vault opens is opened with its own key. -/
theorem openNode_there {record : ChildrenRecord κ} (there : vaults (NodeKeys.vaultId visit.key) = some record) :
    openNode owner vaults visit = some (visit.key, visit.isSealed, vaults) := by
  simp only [openNode, there]

/-- A node whose vault does not open and for which no other key is held is not opened. -/
theorem openNode_missing (missing : vaults (NodeKeys.vaultId visit.key) = none)
    (unheld : visit.parentKey = none ∨
      ∀ held, owner.keys visit.path = some held → NodeKeys.vaultId held = NodeKeys.vaultId visit.key) :
    openNode owner vaults visit = none := by
  have unlinked : relink owner vaults visit = none := by
    unfold relink
    obtain alone | unheld := unheld
    · rw [alone]
      rfl
    · cases visit.parentKey with
      | none => rfl
      | some parentKey =>
        cases visit.path.parent with
        | none => rfl
        | some parent =>
          cases stored : owner.keys visit.path with
          | none => rfl
          | some held => exact if_pos (unheld held stored)
  simp only [openNode, missing, unlinked, Option.map_none]

/-- A visit that does not open goes on with the others. -/
theorem walkReading_missed (unheld : Unheld owner vaults root rootKey rootSealed)
    (opens : (vaults (NodeKeys.vaultId rootKey)).isSome = true)
    (spanning : Spanning vaults root rootKey rootSealed walk (visit :: rest))
    (missing : vaults (NodeKeys.vaultId visit.key) = none) (nodes : Nat) :
    walkReading unread owner root (nodes + 1) walk (visit :: rest) =
      walkReading unread owner root nodes (walk.missed visit) rest := by
  have closed := openNode_missing missing (spanning.unheld unheld missing)
  rw [← spanning.same] at closed
  rw [walkReading, closed]
  exact if_neg (spanning.not_root opens missing)

/-- A visit that opens goes on with its children first, if its record can be read. -/
theorem walkReading_entered (spanning : Spanning vaults root rootKey rootSealed walk (visit :: rest))
    {record : ChildrenRecord κ} (there : vaults (NodeKeys.vaultId visit.key) = some record)
    (readable : unread (NodeKeys.vaultId visit.key) = none) (nodes : Nat) :
    walkReading unread owner root (nodes + 1) walk (visit :: rest) =
      walkReading unread owner root nodes (walk.entered visit)
        ((visitsBelow visit.path visit.key record).reverse ++ rest) := by
  rw [← spanning.same] at there
  rw [walkReading, openNode_there there]
  simp only [readable, there]
  rfl

theorem walkReading_unread (spanning : Spanning vaults root rootKey rootSealed walk (visit :: rest))
    {record : ChildrenRecord κ} (there : vaults (NodeKeys.vaultId visit.key) = some record) {failure : OwnerError}
    (reading : unread (NodeKeys.vaultId visit.key) = some failure) (nodes : Nat) :
    walkReading unread owner root (nodes + 1) walk (visit :: rest) = .error failure := by
  rw [← spanning.same] at there
  rw [walkReading, openNode_there there]
  simp only [reading]

/-- A walk that ends has found all nodes spanned. -/
theorem walkReading_spanning (unheld : Unheld owner vaults root rootKey rootSealed)
    (opens : (vaults (NodeKeys.vaultId rootKey)).isSome = true) {nodes : Nat} {walk after : Walk κ ν}
    {pending : List (Visit κ)} (spanning : Spanning vaults root rootKey rootSealed walk pending)
    (walked : walkReading unread owner root nodes walk pending = .ok after) :
    Spanning vaults root rootKey rootSealed after [] := by
  induction nodes generalizing walk pending with
  | zero => cases walked
  | succ nodes inductionHypothesis =>
    cases pending with
    | nil =>
      obtain rfl := Except.ok.inj walked
      exact spanning
    | cons visit rest =>
      cases there : vaults (NodeKeys.vaultId visit.key) with
      | none =>
        rw [walkReading_missed unheld opens spanning there] at walked
        exact inductionHypothesis (spanning.misses there) walked
      | some record =>
        cases reading : unread (NodeKeys.vaultId visit.key) with
        | some failure =>
          rw [walkReading_unread spanning there reading] at walked
          cases walked
        | none =>
          rw [walkReading_entered spanning there reading] at walked
          exact inductionHypothesis (spanning.opens there) walked

/-- Followed for more nodes than the pending visits lead to, a walk ends the same way however
much further it is followed, and never for want of nodes. -/
theorem walkReading_ends (unheld : Unheld owner vaults root rootKey rootSealed)
    (opens : (vaults (NodeKeys.vaultId rootKey)).isSome = true) (source : ∀ v, unread v ≠ some .unfinished)
    {nodes more : Nat} {walk : Walk κ ν} {pending : List (Visit κ)}
    (spanning : Spanning vaults root rootKey rootSealed walk pending) (enough : (pending.map (weight vaults)).sum < nodes)
    (enoughMore : (pending.map (weight vaults)).sum < more) :
    walkReading unread owner root nodes walk pending = walkReading unread owner root more walk pending ∧
      walkReading unread owner root nodes walk pending ≠ .error .unfinished := by
  induction nodes generalizing walk pending more with
  | zero => exact absurd enough (Nat.not_lt_zero _)
  | succ nodes inductionHypothesis =>
    obtain ⟨more, rfl⟩ := Nat.exists_eq_succ_of_ne_zero (Nat.ne_zero_of_lt enoughMore)
    cases pending with
    | nil => exact ⟨rfl, by simp [walkReading]⟩
    | cons visit rest =>
      rw [List.map_cons, List.sum_cons] at enough enoughMore
      have counted := weight_pos vaults visit
      cases there : vaults (NodeKeys.vaultId visit.key) with
      | none =>
        rw [walkReading_missed unheld opens spanning there, walkReading_missed unheld opens spanning there]
        exact inductionHypothesis (spanning.misses there) (by omega) (by omega)
      | some record =>
        have spread := weight_opens there
        cases reading : unread (NodeKeys.vaultId visit.key) with
        | some failure =>
          rw [walkReading_unread spanning there reading, walkReading_unread spanning there reading]
          refine ⟨rfl, fun same => source (NodeKeys.vaultId visit.key) ?_⟩
          rw [reading, Except.error.inj same]
        | none =>
          rw [walkReading_entered spanning there reading, walkReading_entered spanning there reading]
          have total : (((visitsBelow visit.path visit.key record).reverse ++ rest).map (weight vaults)).sum + 1 =
              weight vaults visit + (rest.map (weight vaults)).sum := by
            rw [List.map_append, List.sum_append, List.map_reverse, List.sum_reverse, spread]
            omega
          exact inductionHypothesis (spanning.opens there) (by omega) (by omega)

/-- A walk fails, but for want of nodes, only at a node spanned whose record cannot be read. -/
theorem walkReading_fails (unheld : Unheld owner vaults root rootKey rootSealed)
    (opens : (vaults (NodeKeys.vaultId rootKey)).isSome = true) {nodes : Nat} {walk : Walk κ ν} {failure : OwnerError}
    {pending : List (Visit κ)} (spanning : Spanning vaults root rootKey rootSealed walk pending)
    (walked : walkReading unread owner root nodes walk pending = .error failure) :
    failure = .unfinished ∨ ∃ p k s, Spans vaults root rootKey rootSealed p k s ∧ unread (NodeKeys.vaultId k) = some failure := by
  induction nodes generalizing walk pending with
  | zero => exact .inl (Except.error.inj walked).symm
  | succ nodes inductionHypothesis =>
    cases pending with
    | nil => cases walked
    | cons visit rest =>
      cases there : vaults (NodeKeys.vaultId visit.key) with
      | none =>
        rw [walkReading_missed unheld opens spanning there] at walked
        exact inductionHypothesis (spanning.misses there) walked
      | some record =>
        cases reading : unread (NodeKeys.vaultId visit.key) with
        | some thrown =>
          rw [walkReading_unread spanning there reading] at walked
          obtain rfl := Except.error.inj walked
          exact .inr ⟨_, _, _, (spanning.visits visit List.mem_cons_self).1, reading⟩
        | none =>
          rw [walkReading_entered spanning there reading] at walked
          exact inductionHypothesis (spanning.opens there) walked

/-! ## What a rediscovery finds -/

/-- A rediscovery ends: with the tree replanted, or with the owner's state as it was. -/
def Rediscovers (unread : ν → Option OwnerError) (owner : Local κ ν) (vaults : Vaults κ ν) (root : EnvPath) (rootKey : κ) : Prop :=
  ∃ bound outcome, (∀ nodes, bound ≤ nodes → discoverCall unread nodes owner vaults root rootKey = outcome) ∧
    (∀ unreachable, outcome.1 = .ok unreachable → Replants vaults owner outcome.2 root rootKey unreachable) ∧
    ∀ failure, outcome.1 = .error failure → outcome.2 = owner ∧
      ∃ p k s, Spans vaults root rootKey ((owner.tree root).any (·.isSealed)) p k s ∧ unread (NodeKeys.vaultId k) = some failure

/-- For every graph of vaults, every root that opens and below which no key is held: a
rediscovery ends, and finds exactly the subtree. It fails only at a node whose children
record cannot be read, and changes nothing then. -/
theorem discovery_exact (unread : ν → Option OwnerError) (owner : Local κ ν) (vaults : Vaults κ ν) (root : EnvPath)
    (rootKey : κ) (opens : (vaults (NodeKeys.vaultId rootKey)).isSome = true)
    (unheld : ∀ p, p.startsWith root = true → p ≠ root → owner.keys p = none)
    (source : ∀ v, unread v ≠ some .unfinished) : Rediscovers unread owner vaults root rootKey := by
  have start := spanning_begins vaults root rootKey ((owner.tree root).any (·.isSealed))
  have quiet : Unheld owner vaults root rootKey ((owner.tree root).any (·.isSealed)) :=
    fun p _ _ spans _ strict held stored => by
      rw [unheld p spans.under strict] at stored
      cases stored
  let first : Visit κ := ⟨root, rootKey, (owner.tree root).any (·.isSealed), none⟩
  let bound := ([first].map (weight vaults)).sum + 1
  refine ⟨bound, discoverCall unread bound owner vaults root rootKey, fun nodes enough => ?_, ?_, ?_⟩
  · have same := (walkReading_ends quiet opens source start (Nat.lt_of_lt_of_le (Nat.lt_succ_self _) enough)
      (Nat.lt_succ_self _)).1
    unfold discoverCall
    dsimp only
    rw [same]
  · intro unreachable ends
    unfold discoverCall at ends ⊢
    dsimp only at ends ⊢
    split at ends
    · cases ends
    · next walk walked =>
      cases ends
      exact (walkReading_spanning quiet opens start walked).replants
  · intro failure ends
    have never := (walkReading_ends quiet opens source start (Nat.lt_succ_self _) (Nat.lt_succ_self _)).2
    unfold discoverCall at ends ⊢
    dsimp only at ends ⊢
    split at ends
    · next thrown walked =>
      obtain rfl := Except.error.inj ends
      refine ⟨rfl, (walkReading_fails quiet opens start walked).resolve_left ?_⟩
      rintro rfl
      exact never walked
    · cases ends

end

/-- A project whose one child's sealed key leads back to the project is rediscovered down to
the depth limit. -/
theorem discovery_exact_of_loop :
    Rediscovers (fun _ => none) newcomer (oneChild (.sealed (some ⟨acme, 0⟩)) 0) acme ⟨acme, 0⟩ :=
  discovery_exact _ _ _ _ _ (by decide) (fun _ _ _ => rfl) (by simp)

example : ∃ unreachable after,
    discoverCall (fun _ => none) 5 newcomer (oneChild (.sealed (some ⟨acme, 0⟩)) 0) acme ⟨acme, 0⟩ = (.ok unreachable, after) ∧
      (after.tree ⟨["acme", "prod", "prod", "prod"], by decide, by decide⟩).map (·.vaultId) = some ⟨acme, 0⟩ :=
  ⟨_, _, rfl, by decide⟩

end GalataVault.Owner
