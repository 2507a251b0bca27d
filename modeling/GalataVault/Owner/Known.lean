import Mathlib.Data.List.Induction
import GalataVault.Owner.Subtrees

/-!
# The known tree

What a single owner knows of a project right after a rediscovery from the topmost held node
that opened every node: each known node has a key, of the vault that is recorded for it, and
the children records lead from every node's vault to the known children and to no others.
Sealed keys that are held for nodes whose entries do not open a vault are written into the
records by the same walk, so it leaves the records as it found the nodes.

Vaults that the server no longer has when a later rediscovery runs change nothing of the
known tree: the nodes that do not open are kept, with what is known below them.
-/

namespace GalataVault.Owner

/-! ## Paths and their parents -/

namespace EnvPath

theorem parent_child {q p : EnvPath} {seg : String} (made : q.child seg = some p) : p.parent = some q := by
  have segments := child_segments made
  have some_segment : 0 < q.segments.length := List.length_pos_of_ne_nil q.nonempty
  have long : 1 < p.segments.length := by
    rw [segments, List.length_append, List.length_singleton]
    omega
  unfold parent
  rw [dif_pos long, Option.some.injEq]
  apply ext
  dsimp only
  rw [segments, List.dropLast_concat]

theorem child_parent {q p : EnvPath} (above : p.parent = some q) : q.child p.last = some p := by
  unfold parent at above
  split at above
  · obtain rfl := Option.some.inj above
    exact child_of_segments (List.dropLast_append_getLast p.nonempty).symm
  · cases above

/-- What is at or below a path is reached from it child by child. -/
@[elab_as_elim]
theorem under_induction {top : EnvPath} {motive : (p : EnvPath) → p.startsWith top = true → Prop}
    (root : motive top top.startsWith_refl)
    (child : ∀ (q p : EnvPath) (under : q.startsWith top = true) (above : p.parent = some q), motive q under →
      motive p (startsWith_trans (startsWith_child (child_parent above)) under))
    (p : EnvPath) (under : p.startsWith top = true) : motive p under := by
  obtain ⟨rest, whole⟩ := startsWith_iff.mp under
  induction rest using List.reverseRecOn generalizing p with
  | nil =>
    rw [List.append_nil] at whole
    obtain rfl := ext whole
    exact root
  | append_singleton rest seg inductionHypothesis =>
    have bounded := p.bounded
    rw [← whole, ← List.append_assoc, List.length_append] at bounded
    let q : EnvPath := ⟨top.segments ++ rest, by simp [top.nonempty], Nat.le_of_succ_le bounded⟩
    have above : p.parent = some q := parent_child (child_of_segments (by rw [← whole, List.append_assoc]))
    have beneath : q.startsWith top = true := startsWith_iff.mpr (List.prefix_append _ _)
    exact child q p beneath above (inductionHypothesis q beneath rfl)

/-- What is above a path is outside each subtree that the path is outside. -/
theorem startsWith_above {p q l : EnvPath} (under : p.startsWith q = true) (outside : p.startsWith l = false) :
    q.startsWith l = false := by
  rw [← Bool.not_eq_true] at outside ⊢
  exact fun beneath => outside (startsWith_trans under beneath)

/-- What is directly below a path has one segment more. -/
theorem child_iff {path p : EnvPath} :
    p.startsWith path = true ∧ p.depth = path.depth + 1 ↔ p.parent = some path := by
  constructor
  · rintro ⟨under, deep⟩
    obtain ⟨rest, whole⟩ := startsWith_iff.mp under
    have single : rest.length = 1 := by
      have lengths := congrArg List.length whole
      rw [List.length_append] at lengths
      change path.segments.length + rest.length = p.depth at lengths
      rw [deep] at lengths
      exact Nat.add_left_cancel lengths
    obtain ⟨seg, rfl⟩ := List.length_eq_one_iff.mp single
    exact parent_child (child_of_segments whole.symm)
  · intro above
    have made := child_parent above
    refine ⟨startsWith_child made, ?_⟩
    rw [depth, child_segments made, List.length_append]
    rfl

end EnvPath

variable {κ ν : Type} [NodeKeys κ ν]

/-! ## The known tree -/

/-- A project as its single owner knows it: the known paths form a tree below the topmost held
node; every node has a key, of the vault that is recorded for it, derived from its parent's
unless it is recorded as sealed; keys that are held or stored are the nodes' own; and the
record of a known node whose vault is there leads to the known children and to no others. -/
structure Known (paths : List EnvPath) (owner : Local κ ν) (vaults : Vaults κ ν) (top : EnvPath) (keyOf : EnvPath → κ) :
    Prop where
  listed : ∀ p, p ∈ paths ↔ (owner.tree p).isSome = true
  root : top ∈ paths
  under : ∀ p ∈ paths, p.startsWith top = true
  closed : ∀ p ∈ paths, p ≠ top → ∀ q ∈ p.parent, q ∈ paths
  recorded : ∀ p ∈ paths, (owner.tree p).map (·.vaultId) = some (NodeKeys.vaultId (keyOf p))
  derived : ∀ p ∈ paths, p ≠ top → (owner.tree p).any (·.isSealed) = false →
    ∀ q ∈ p.parent, keyOf p = NodeKeys.child (keyOf q) p.last
  apart : ∀ p ∈ paths, ∀ q ∈ paths, NodeKeys.vaultId (keyOf p) = NodeKeys.vaultId (keyOf q) → p = q
  topmost : top ∈ owner.held
  held : ∀ h ∈ owner.held, h.startsWith top = true ∧ owner.keys h = some (keyOf h)
  stored : ∀ p ∈ paths, ∀ k ∈ owner.keys p, k = keyOf p
  lists : ∀ p ∈ paths, p ≠ top → ∀ q ∈ p.parent, ∀ record ∈ vaults (NodeKeys.vaultId (keyOf q)),
    ∃ e ∈ record.get p.last, e.mode.isSealed = (owner.tree p).any (·.isSealed) ∧ e.mode.key (keyOf q) p.last = some (keyOf p)
  leads : ∀ q ∈ paths, ∀ record ∈ vaults (NodeKeys.vaultId (keyOf q)), ∀ e ∈ record.children, ∀ p ∈ q.child e.seg,
    ∀ k ∈ e.mode.key (keyOf q) e.seg, p ∈ paths ∧ k = keyOf p

section

variable {paths : List EnvPath} {owner : Local κ ν} {start : Vaults κ ν} {top : EnvPath} {keyOf : EnvPath → κ}

/-- What the tree has for a known path. -/
theorem Known.node (known : Known paths owner start top keyOf) {p : EnvPath} (member : p ∈ paths) :
    owner.tree p = some ⟨NodeKeys.vaultId (keyOf p), (owner.tree p).any (·.isSealed)⟩ := by
  obtain ⟨node, noted, vault⟩ := Option.map_eq_some_iff.mp (known.recorded p member)
  rw [noted, ← vault]
  rfl

/-- What the tree has a node for is known. -/
theorem Known.of_node (known : Known paths owner start top keyOf) {p : EnvPath} {node : TreeNode ν}
    (noted : owner.tree p = some node) :
    p ∈ paths ∧ node = ⟨NodeKeys.vaultId (keyOf p), (owner.tree p).any (·.isSealed)⟩ := by
  have member : p ∈ paths := (known.listed p).mpr (by rw [noted]; rfl)
  exact ⟨member, Option.some.inj (noted.symm.trans (known.node member))⟩

/-- What is above a known path and below the topmost is known. -/
theorem Known.above (known : Known paths owner start top keyOf) {p u : EnvPath} (member : p ∈ paths)
    (under : u.startsWith top = true) (beneath : p.startsWith u = true) : u ∈ paths := by
  induction p, beneath using EnvPath.under_induction with
  | root => exact member
  | child q p below above inductionHypothesis =>
    have strict : p ≠ top :=
      EnvPath.child_ne_root (EnvPath.child_parent above) (EnvPath.startsWith_trans below under)
    exact inductionHypothesis (known.closed p member strict q above)

end

/-! ## What a walk has listed -/

/-- An opened node's record lists a child with a key, sealed or not. -/
def Listed (walk : Walk κ ν) (q : EnvPath) (parentKey : κ) (p : EnvPath) (k : κ) (isSealed : Bool) : Prop :=
  (q, parentKey) ∈ walk.opened ∧ q.child p.last = some p ∧ ∃ record e, walk.vaults (NodeKeys.vaultId parentKey) = some record ∧
    record.get p.last = some e ∧ e.mode.key parentKey p.last = some k ∧ e.mode.isSealed = isSealed

/-- What the records of a walk's opened nodes list is opened, could not be opened, or is to be
visited, and these are all that is found. -/
structure Listing (walk : Walk κ ν) (root : EnvPath) (pending : List (Visit κ)) : Prop where
  opened : ∀ p k, (p, k) ∈ walk.opened → p ≠ root →
    ∃ q parentKey isSealed, Listed walk q parentKey p k isSealed ∧ walk.found p = some ⟨NodeKeys.vaultId k, isSealed⟩
  visits : ∀ visit ∈ pending, visit.path ≠ root →
    ∃ q parentKey, visit.parentKey = some parentKey ∧ Listed walk q parentKey visit.path visit.key visit.isSealed
  listed : ∀ q parentKey, (q, parentKey) ∈ walk.opened → ∀ record, walk.vaults (NodeKeys.vaultId parentKey) = some record →
    ∀ e ∈ record.children, ∀ p, q.child e.seg = some p → ∀ k, e.mode.key parentKey e.seg = some k →
      (p, k) ∈ walk.opened ∨ p ∈ walk.unreachable ∨ ∃ visit ∈ pending, visit.path = p ∧ visit.key = k
  found : ∀ p, (walk.found p).isSome = true → p ∈ walk.unreachable ∨ ∃ k, (p, k) ∈ walk.opened
  root : (∃ k, (root, k) ∈ walk.opened) ∨ ∃ visit ∈ pending, visit.path = root

section

variable {home : ν → EnvPath} {keys : EnvPath → Option κ} {first : Vaults κ ν} {root : EnvPath} {rootKey : κ}
  {rootSealed : Bool} {walk : Walk κ ν} {visit : Visit κ} {rest : List (Visit κ)}

theorem listing_begins (vaults : Vaults κ ν) (root : EnvPath) (rootKey : κ) (rootSealed : Bool) :
    Listing ⟨vaults, fun _ => none, [], []⟩ root [⟨root, rootKey, rootSealed, none⟩] where
  opened := by
    intro p k member
    cases member
  visits := by
    intro visit member strict
    obtain rfl := List.mem_singleton.mp member
    exact absurd rfl strict
  listed := by
    intro q k member
    cases member
  found := by
    intro p noted
    cases noted
  root := .inr ⟨_, List.mem_singleton_self _, rfl⟩

/-- A node is visited once: one that is to be visited is not opened, nor to be visited again. -/
theorem Sound.fresh (sound : Sound home keys first root rootKey rootSealed walk (visit :: rest)) :
    (∀ k, (visit.path, k) ∉ walk.opened) ∧ ∀ other ∈ rest, other.path ≠ visit.path := by
  obtain ⟨fresh, _⟩ := List.nodup_cons.mp (show (visit.path :: (rest.map (·.path) ++
    (walk.unreachable ++ walk.opened.map Prod.fst))).Nodup from sound.distinct)
  constructor
  · intro k member
    exact fresh (List.mem_append_right _ (List.mem_append_right _ (List.mem_map.mpr ⟨_, member, rfl⟩)))
  · intro other member same
    exact fresh (List.mem_append_left _ (same ▸ List.mem_map_of_mem member))

/-- A node is opened with one key, and one node with a vault. -/
theorem Sound.opened_once {pending : List (Visit κ)} (sound : Sound home keys first root rootKey rootSealed walk pending)
    {p q : EnvPath} {k l : κ} (one : (p, k) ∈ walk.opened) (other : (q, l) ∈ walk.opened) :
    (p = q → k = l) ∧ (NodeKeys.vaultId k = NodeKeys.vaultId l → p = q) := by
  constructor
  · rintro rfl
    have distinct : (walk.opened.map Prod.fst).Nodup := (List.nodup_append.mp sound.distinct).2.1.of_append_right
    exact congrArg Prod.snd (List.inj_on_of_nodup_map distinct one other rfl)
  · intro same
    rw [← (sound.opened p k one).2.1, same, (sound.opened q l other).2.1]

/-- A visit that does not open. -/
theorem Listing.misses (listing : Listing walk root (visit :: rest)) (strict : visit.path ≠ root) (node : TreeNode ν)
    (fresh : ∀ k, (visit.path, k) ∉ walk.opened) :
    Listing { walk with
        found := Function.update walk.found visit.path (some node)
        unreachable := walk.unreachable ++ [visit.path] } root rest where
  opened := by
    intro p k member below
    obtain ⟨q, parentKey, isSealed, listed, noted⟩ := listing.opened p k member below
    have other : p ≠ visit.path := by
      rintro rfl
      exact fresh k member
    exact ⟨q, parentKey, isSealed, listed, (Function.update_of_ne other ..).trans noted⟩
  visits := fun other member => listing.visits other (List.mem_cons_of_mem _ member)
  listed := by
    intro q parentKey member record opens e listed p made k key
    obtain opened | missed | ⟨other, waits, rfl, rfl⟩ := listing.listed q parentKey member record opens e listed p made k key
    · exact .inl opened
    · exact .inr (.inl (List.mem_append_left _ missed))
    · obtain rfl | later := List.mem_cons.mp waits
      · exact .inr (.inl (List.mem_append_right _ (List.mem_singleton_self _)))
      · exact .inr (.inr ⟨other, later, rfl, rfl⟩)
  found := by
    intro p noted
    by_cases here : p = visit.path
    · exact .inl (List.mem_append_right _ (List.mem_singleton.mpr here))
    · obtain missed | opened := listing.found p (by simpa only [Function.update_of_ne here] using noted)
      · exact .inl (List.mem_append_left _ missed)
      · exact .inr opened
  root := by
    obtain opened | ⟨other, waits, same⟩ := listing.root
    · exact .inl opened
    · obtain rfl | later := List.mem_cons.mp waits
      · exact absurd same strict
      · exact .inr ⟨other, later, same⟩

/-- A visit that opens with its own key. -/
theorem Listing.opens (listing : Listing walk root (visit :: rest)) (fresh : ∀ k, (visit.path, k) ∉ walk.opened)
    {record : ChildrenRecord κ} (there : walk.vaults (NodeKeys.vaultId visit.key) = some record) :
    Listing (walk.entered visit) root ((visitsBelow visit.path visit.key record).reverse ++ rest) where
  opened := by
    intro p k member below
    obtain here | before := List.mem_cons.mp member
    · cases here
      obtain ⟨q, parentKey, _, parent, made, listed⟩ := listing.visits visit List.mem_cons_self below
      exact ⟨q, parentKey, visit.isSealed, ⟨List.mem_cons_of_mem _ parent, made, listed⟩, Function.update_self ..⟩
    · obtain ⟨q, parentKey, isSealed, ⟨parent, made, listed⟩, noted⟩ := listing.opened p k before below
      have other : p ≠ visit.path := by
        rintro rfl
        exact fresh k before
      exact ⟨q, parentKey, isSealed, ⟨List.mem_cons_of_mem _ parent, made, listed⟩,
        (Function.update_of_ne other ..).trans noted⟩
  visits := by
    intro other member below
    obtain new | later := List.mem_append.mp member
    · obtain ⟨e, listed, given⟩ := List.mem_filterMap.mp (List.mem_reverse.mp new)
      obtain ⟨made, key, parent, flag⟩ := visitOf_spec given
      have found := ChildrenRecord.get_of_mem listed
      rw [← EnvPath.child_last made] at key found
      rw [← EnvPath.child_last made] at made
      exact ⟨visit.path, visit.key, parent, List.mem_cons_self, made, record, e, there, found, key, flag.symm⟩
    · obtain ⟨q, parentKey, parentOf, parent, made, listed⟩ := listing.visits other (List.mem_cons_of_mem _ later) below
      exact ⟨q, parentKey, parentOf, List.mem_cons_of_mem _ parent, made, listed⟩
  listed := by
    intro q parentKey member other opens e listed p made k key
    obtain here | before := List.mem_cons.mp member
    · cases here
      obtain rfl := Option.some.inj (there.symm.trans opens)
      have given : visitOf visit.path visit.key e = some ⟨p, k, e.mode.isSealed, some visit.key⟩ := by
        rw [visitOf, made, key]
        rfl
      have below : (⟨p, k, e.mode.isSealed, some visit.key⟩ : Visit κ) ∈ (visitsBelow visit.path visit.key record).reverse :=
        List.mem_reverse.mpr (List.mem_filterMap.mpr ⟨e, listed, given⟩)
      exact .inr (.inr ⟨_, List.mem_append_left _ below, rfl, rfl⟩)
    · obtain opened | missed | ⟨waiting, waits, rfl, rfl⟩ := listing.listed q parentKey before other opens e listed p made k key
      · exact .inl (List.mem_cons_of_mem _ opened)
      · exact .inr (.inl missed)
      · obtain rfl | later := List.mem_cons.mp waits
        · exact .inl List.mem_cons_self
        · exact .inr (.inr ⟨waiting, List.mem_append_right _ later, rfl, rfl⟩)
  found := by
    intro p noted
    by_cases here : p = visit.path
    · subst here
      exact .inr ⟨visit.key, List.mem_cons_self⟩
    · change (Function.update walk.found visit.path _ p).isSome = true at noted
      rw [Function.update_of_ne here] at noted
      obtain missed | ⟨k, opened⟩ := listing.found p noted
      · exact .inl missed
      · exact .inr ⟨k, List.mem_cons_of_mem _ opened⟩
  root := by
    obtain ⟨k, opened⟩ | ⟨other, waits, same⟩ := listing.root
    · exact .inl ⟨k, List.mem_cons_of_mem _ opened⟩
    · obtain rfl | later := List.mem_cons.mp waits
      · exact .inl ⟨other.key, same ▸ List.mem_cons_self⟩
      · exact .inr ⟨other, List.mem_append_right _ later, same⟩

variable [DecidableEq ν]

/-- A parent's entry is pointed at another key for the node that is visited, and the node is to
be visited with that. -/
theorem Listing.relinked (listing : Listing walk root (visit :: rest))
    (sound : Sound home keys first root rootKey rootSealed walk (visit :: rest)) (strict : visit.path ≠ root)
    {parentKey : κ} (parentOf : visit.parentKey = some parentKey) {record : ChildrenRecord κ}
    (there : walk.vaults (NodeKeys.vaultId parentKey) = some record) (held : κ) :
    Listing { walk with
        vaults := Function.update walk.vaults (NodeKeys.vaultId parentKey) (some (record.sealChild visit.path.last held)) } root
      (⟨visit.path, held, true, visit.parentKey⟩ :: rest) := by
  obtain ⟨unopened, once⟩ := sound.fresh
  obtain ⟨q, again, same, parent, made, _⟩ := listing.visits visit List.mem_cons_self strict
  obtain rfl := Option.some.inj (parentOf.symm.trans same)
  -- Of the opened nodes only the parent has the record that is changed, and that only at the node.
  have kept : ∀ {u l p k isSealed}, p ≠ visit.path → Listed walk u l p k isSealed →
      Listed { walk with
        vaults := Function.update walk.vaults (NodeKeys.vaultId parentKey) (some (record.sealChild visit.path.last held)) }
        u l p k isSealed := by
    rintro u l p k isSealed other ⟨opened, makes, old, e, opens, found, key, flag⟩
    refine ⟨opened, makes, ?_⟩
    by_cases vault : NodeKeys.vaultId l = NodeKeys.vaultId parentKey
    · obtain rfl := (sound.opened_once opened parent).2 vault
      rw [vault] at opens
      obtain rfl := Option.some.inj (there.symm.trans opens)
      have apart : p.last ≠ visit.path.last := by
        intro sameSeg
        rw [sameSeg] at makes
        exact other (Option.some.inj (makes.symm.trans made))
      exact ⟨_, e, by rw [vault]; exact Function.update_self .., (record.get_sealChild_other held apart).trans found, key, flag⟩
    · exact ⟨old, e, (Function.update_of_ne vault ..).trans opens, found, key, flag⟩
  constructor
  case opened =>
    intro p k member below
    obtain ⟨u, l, isSealed, listed, noted⟩ := listing.opened p k member below
    have other : p ≠ visit.path := by
      rintro rfl
      exact unopened k member
    exact ⟨u, l, isSealed, kept other listed, noted⟩
  case visits =>
    intro other member below
    obtain rfl | later := List.mem_cons.mp member
    · exact ⟨q, parentKey, parentOf, parent, made, _, _, Function.update_self .., record.get_sealChild_self _ held, rfl, rfl⟩
    · obtain ⟨u, l, parentOfOther, listed⟩ := listing.visits other (List.mem_cons_of_mem _ later) below
      exact ⟨u, l, parentOfOther, kept (once other later) listed⟩
  case listed =>
    intro u l member other opens e listed p makes k key
    have atNode : ∀ {k'}, (p, k') ∈ walk.opened ∨ p ∈ walk.unreachable ∨
          (∃ waiting ∈ visit :: rest, waiting.path = p ∧ waiting.key = k') → p ≠ visit.path →
        (p, k') ∈ walk.opened ∨ p ∈ walk.unreachable ∨
          ∃ waiting ∈ (⟨visit.path, held, true, visit.parentKey⟩ : Visit κ) :: rest, waiting.path = p ∧ waiting.key = k' := by
      rintro k' (opened | missed | ⟨waiting, waits, rfl, rfl⟩) away
      · exact .inl opened
      · exact .inr (.inl missed)
      · obtain rfl | later := List.mem_cons.mp waits
        · exact absurd rfl away
        · exact .inr (.inr ⟨waiting, List.mem_cons_of_mem _ later, rfl, rfl⟩)
    by_cases vault : NodeKeys.vaultId l = NodeKeys.vaultId parentKey
    · obtain rfl := (sound.opened_once member parent).2 vault
      obtain rfl := (sound.opened_once member parent).1 rfl
      change Function.update walk.vaults _ _ _ = some other at opens
      rw [Function.update_self] at opens
      obtain rfl := Option.some.inj opens
      have found := ChildrenRecord.get_of_mem listed
      by_cases here : e.seg = visit.path.last
      · rw [here, record.get_sealChild_self] at found
        obtain rfl := Option.some.inj found
        obtain rfl := Option.some.inj key
        obtain rfl := Option.some.inj (made.symm.trans makes)
        exact .inr (.inr ⟨_, List.mem_cons_self, rfl, rfl⟩)
      · rw [record.get_sealChild_other held here] at found
        refine atNode (listing.listed u l member record there e (List.mem_of_find?_eq_some found) p makes k key) ?_
        rintro rfl
        exact here (EnvPath.child_last makes).symm
    · change Function.update walk.vaults _ _ _ = some other at opens
      rw [Function.update_of_ne vault] at opens
      refine atNode (listing.listed u l member other opens e listed p makes k key) ?_
      rintro rfl
      obtain ⟨rfl, _⟩ := EnvPath.child_injective makes made
      exact vault (congrArg NodeKeys.vaultId ((sound.opened_once member parent).1 rfl))
  case found => exact listing.found
  case root =>
    obtain opened | ⟨other, waits, atRoot⟩ := listing.root
    · exact .inl opened
    · obtain rfl | later := List.mem_cons.mp waits
      · exact absurd atRoot strict
      · exact .inr ⟨other, List.mem_cons_of_mem _ later, atRoot⟩

/-- A walk that ends has opened or missed whatever its records list. -/
theorem walkFrom_listing {owner : Local κ ν} (homed : Homed home owner.keys first)
    (homeRoot : home (NodeKeys.vaultId rootKey) = root) {nodes : Nat} {pending : List (Visit κ)} {ended : Walk κ ν}
    (sound : Sound home owner.keys first root rootKey rootSealed walk pending) (listing : Listing walk root pending)
    (walks : walkFrom owner root nodes walk pending = .ok ended) : Listing ended root [] := by
  induction nodes generalizing walk pending with
  | zero => cases walks
  | succ nodes inductionHypothesis =>
    cases pending with
    | nil =>
      obtain rfl := Except.ok.inj walks
      exact listing
    | cons visit rest =>
      unfold walkFrom at walks
      split at walks
      · split at walks
        · cases walks
        · next strict =>
          exact inductionHypothesis (sound.misses _) (listing.misses strict _ sound.fresh.1) walks
      · next key isSealed vaults' opens =>
        split at walks
        · cases walks
        · next record found =>
          refine inductionHypothesis (sound.openNode homed homeRoot opens found) ?_ walks
          unfold Owner.openNode at opens
          split at opens
          · cases opens
            exact listing.opens sound.fresh.1 found
          · obtain ⟨⟨held, relinked⟩, relinks, same⟩ := Option.map_eq_some_iff.mp opens
            cases same
            obtain ⟨parentKey, parentOf, _, _, changes⟩ := relink_some relinks
            obtain rfl | ⟨q, again, seg, parent, made, same, _⟩ := sound.pending visit List.mem_cons_self
            · cases parentOf
            obtain rfl := Option.some.inj (parentOf.symm.trans same)
            obtain ⟨_, _, under, there⟩ := sound.opened q parentKey parent
            obtain ⟨old, there⟩ := Option.isSome_iff_exists.mp there
            obtain rfl := changes old there
            have pointed := listing.relinked sound (EnvPath.child_ne_root made under) parentOf there key
            exact pointed.opens sound.fresh.1 found

end

/-! ## What a rediscovery that opens every node leaves -/

section

variable {home : ν → EnvPath} {paths : List EnvPath} {before owner : Local κ ν} {vaults : Vaults κ ν}
  {top : EnvPath} {walk : Walk κ ν}

/-- The key of a node: the one it was opened with, or the one that is held for it. -/
def keyWalked (owner : Local κ ν) (walk : Walk κ ν) (topKey : κ) (p : EnvPath) : κ :=
  match walk.opened.find? (·.1 = p) with
  | some (_, key) => key
  | none => (owner.keys p).getD topKey

omit [NodeKeys κ ν] in
theorem keyWalked_opened (topKey : κ) {p : EnvPath} {k : κ} (member : (p, k) ∈ walk.opened)
    (once : ∀ l, (p, l) ∈ walk.opened → l = k) : keyWalked owner walk topKey p = k := by
  unfold keyWalked
  split
  · next found =>
    have here := List.find?_some found
    rw [decide_eq_true_eq] at here
    exact once _ (here ▸ List.mem_of_find?_eq_some found)
  · next absent =>
    have other := List.find?_eq_none.mp absent (p, k) member
    simp at other

/-- An owner that knows nothing but what is below a topmost node it holds, and whose keys are
those that the nodes were opened with. -/
structure Single (paths : List EnvPath) (owner : Local κ ν) (top : EnvPath) (opened : List (EnvPath × κ)) : Prop where
  listed : ∀ p, p ∈ paths ↔ (owner.tree p).isSome = true
  under : ∀ p ∈ paths, p.startsWith top = true
  topmost : top ∈ owner.held
  held : ∀ h ∈ owner.held, h.startsWith top = true ∧ (owner.keys h).isSome = true
  current : ∀ p k, (p, k) ∈ opened → ∀ stored, owner.keys p = some stored → stored = k

/-- What is known after a rediscovery that opened every node is what was opened. -/
theorem mem_paths_iff {first : Vaults κ ν} {topKey : κ} {topSealed : Bool}
    (sound : Sound home before.keys first top topKey topSealed walk []) (listing : Listing walk top [])
    (whole : walk.unreachable = [])
    (single : Single paths { before with tree := replanted before.tree top walk } top walk.opened) {p : EnvPath} :
    p ∈ paths ↔ ∃ k, (p, k) ∈ walk.opened := by
  constructor
  · intro member
    have under := single.under p member
    have noted := (single.listed p).mp member
    change (replanted before.tree top walk p).isSome = true at noted
    unfold replanted at noted
    split at noted
    · next node found =>
      obtain missed | opened := listing.found p (by rw [found]; rfl)
      · rw [whole] at missed
        cases missed
      · exact opened
    · rw [under, whole] at noted
      cases noted
  · rintro ⟨k, opened⟩
    obtain ⟨flag, found⟩ := sound.recorded_vault opened
    refine (single.listed p).mpr ?_
    change (replanted before.tree top walk p).isSome = true
    rw [replanted_found found]
    rfl

/-- What a single owner knows after a rediscovery from the topmost node that opened every
node. Keys of different nodes own different vaults. -/
theorem known_of_discover [DecidableEq ν] (homed : Homed home before.keys vaults) {nodes : Nat}
    (found : discover nodes before vaults top = .ok (owner, walk)) (whole : walk.unreachable = [])
    (single : Single paths owner top walk.opened) : ∃ keyOf, Known paths owner walk.vaults top keyOf := by
  obtain ⟨list, topKey, chains, ends, found⟩ := discover_ok found
  have homeTop := chain_home homed chains ends
  have sound := discoverFrom_sound homed homeTop found
  obtain ⟨rfl, walks⟩ := discoverFrom_ok found
  have listing := walkFrom_listing homed homeTop (sound_begins _ homed) (listing_begins ..) walks
  have opens : ∀ {p}, p ∈ paths ↔ ∃ k, (p, k) ∈ walk.opened := mem_paths_iff sound listing whole single
  have keyed : ∀ {p k}, (p, k) ∈ walk.opened → keyWalked before walk topKey p = k :=
    fun opened => keyWalked_opened topKey opened fun l again => (sound.opened_once again opened).1 rfl
  have node : ∀ {p tree}, walk.found p = some tree → replanted before.tree top walk p = some tree := replanted_found
  have listed : ∀ {p}, p ∈ paths → p ≠ top → ∃ q isSealed, p.parent = some q ∧
      Listed walk q (keyWalked before walk topKey q) p (keyWalked before walk topKey p) isSealed ∧
      (replanted before.tree top walk p).any (·.isSealed) = isSealed := by
    intro p member strict
    obtain ⟨k, opened⟩ := opens.mp member
    obtain ⟨q, parentKey, isSealed, listed, noted⟩ := listing.opened p k opened strict
    refine ⟨q, isSealed, EnvPath.parent_child listed.2.1, ?_, ?_⟩
    · rw [keyed listed.1, keyed opened]
      exact listed
    · rw [node noted]
      rfl
  refine ⟨keyWalked before walk topKey, ?_⟩
  constructor
  case listed => exact single.listed
  case root =>
    obtain ⟨k, opened⟩ | ⟨visit, waits, _⟩ := listing.root
    · exact opens.mpr ⟨k, opened⟩
    · cases waits
  case under => exact single.under
  case closed =>
    intro p member strict q above
    obtain ⟨q', _, above', listed, _⟩ := listed member strict
    obtain rfl := Option.some.inj (above'.symm.trans above)
    exact opens.mpr ⟨_, listed.1⟩
  case recorded =>
    intro p member
    obtain ⟨k, opened⟩ := opens.mp member
    obtain ⟨isSealed, noted⟩ := sound.recorded_vault opened
    change (replanted before.tree top walk p).map (·.vaultId) = _
    rw [node noted, keyed opened]
    rfl
  case derived =>
    intro p member strict flag q above
    obtain ⟨q', isSealed, above', ⟨_, _, record, e, _, _, key, mode⟩, same⟩ := listed member strict
    obtain rfl := Option.some.inj (above'.symm.trans above)
    obtain rfl := same.symm.trans flag
    cases entry : e.mode with
    | derived =>
      rw [entry] at key
      exact (Option.some.inj key).symm
    | sealed opens =>
      rw [entry] at mode
      cases mode
  case apart =>
    intro p member q member' same
    obtain ⟨k, opened⟩ := opens.mp member
    obtain ⟨l, opened'⟩ := opens.mp member'
    rw [keyed opened, keyed opened'] at same
    exact (sound.opened_once opened opened').2 same
  case topmost => exact single.topmost
  case held =>
    intro h held
    obtain ⟨under, stored⟩ := single.held h held
    refine ⟨under, ?_⟩
    obtain ⟨key, stored⟩ := Option.isSome_iff_exists.mp stored
    by_cases member : h ∈ paths
    · obtain ⟨k, opened⟩ := opens.mp member
      rw [keyed opened, stored, single.current h k opened key stored]
    · have unopened : walk.opened.find? (·.1 = h) = none := by
        rw [List.find?_eq_none]
        rintro ⟨p, k⟩ opened same
        rw [decide_eq_true_eq] at same
        exact member (opens.mpr ⟨k, same ▸ opened⟩)
      change before.keys h = some key at stored
      change before.keys h = some (keyWalked before walk topKey h)
      rw [keyWalked, unopened, stored]
      rfl
  case stored =>
    intro p member key stored
    obtain ⟨k, opened⟩ := opens.mp member
    rw [keyed opened, single.current p k opened key stored]
  case lists =>
    intro p member strict q above record there
    obtain ⟨q', isSealed, above', ⟨_, _, record', e, there', found, key, mode⟩, same⟩ := listed member strict
    obtain rfl := Option.some.inj (above'.symm.trans above)
    obtain rfl := Option.some.inj (there'.symm.trans there)
    exact ⟨e, found, mode.trans same.symm, key⟩
  case leads =>
    intro q member record there e entry p made k key
    obtain ⟨l, opened⟩ := opens.mp member
    rw [keyed opened] at there key
    obtain reached | missed | ⟨visit, waits, _⟩ := listing.listed q l opened record there e entry p made k key
    · exact ⟨opens.mpr ⟨k, reached⟩, (keyed reached).symm⟩
    · rw [whole] at missed
      cases missed
    · cases waits

end

end GalataVault.Owner
