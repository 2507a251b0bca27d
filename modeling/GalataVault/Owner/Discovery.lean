import GalataVault.Owner.Tree

/-!
# What rediscovery and chains agree on

A rediscovery walks down from one key through the children records, and records a vault
for each node. A chain starts at the deepest held path, and follows the records only
where the recorded tree says that a key is sealed. Here they are shown to reach the same
vaults, as long as each key that is held below the root is the one the records lead to.

That no two nodes have one vault is assumed as a map from vaults to the nodes they are
of: keys that are derived or drawn for different nodes own different vaults.
-/

namespace GalataVault.Owner

variable {κ ν : Type} [NodeKeys κ ν]

/-! ## Descents -/

/-- Where a chain ends. -/
def descend (vaults : Vaults κ ν) (tree : EnvPath → Option (TreeNode ν)) :
    EnvPath → κ → List String → Except OwnerError (EnvPath × κ)
  | here, key, [] => .ok (here, key)
  | here, key, seg :: rest =>
    match here.child seg with
    | none => .error .invalidPath
    | some child =>
      match nextKey vaults tree key seg child with
      | .error e => .error e
      | .ok next => descend vaults tree child next rest

variable {vaults : Vaults κ ν} {tree : EnvPath → Option (TreeNode ν)}

theorem chainFrom_of_descend {here there : EnvPath} {key last : κ} {segs : List String}
    (descends : descend vaults tree here key segs = .ok (there, last)) :
    ∃ keys, chainFrom vaults tree here key segs = .ok keys ∧ keys.getLast? = some (there, last) := by
  induction segs generalizing here key with
  | nil =>
    cases descends
    exact ⟨_, rfl, rfl⟩
  | cons seg rest inductionHypothesis =>
    unfold descend at descends
    split at descends
    · cases descends
    · next child made =>
      split at descends
      · cases descends
      · next next found =>
        obtain ⟨keys, below, ends⟩ := inductionHypothesis descends
        refine ⟨(here, key) :: keys, ?_, ?_⟩
        · rw [chainFrom, made]
          change (nextKey vaults tree key seg child >>= fun next => chainFrom vaults tree child next rest >>= _) = _
          rw [found]
          change (chainFrom vaults tree child next rest >>= _) = _
          rw [below]
          rfl
        · rw [List.getLast?_cons, ends]
          rfl

theorem descend_of_chainFrom {here : EnvPath} {key : κ} {segs : List String} {keys : List (EnvPath × κ)}
    (chains : chainFrom vaults tree here key segs = .ok keys) :
    ∃ there last, descend vaults tree here key segs = .ok (there, last) ∧ keys.getLast? = some (there, last) := by
  induction segs generalizing here key keys with
  | nil =>
    cases chains
    exact ⟨_, _, rfl, rfl⟩
  | cons seg rest inductionHypothesis =>
    unfold chainFrom at chains
    split at chains
    · cases chains
    · next child made =>
      cases found : nextKey vaults tree key seg child with
      | error e =>
        rw [found] at chains
        cases chains
      | ok next =>
        rw [found] at chains
        cases below : chainFrom vaults tree child next rest with
        | error e =>
          change (chainFrom vaults tree child next rest >>= _) = _ at chains
          rw [below] at chains
          cases chains
        | ok list =>
          change (chainFrom vaults tree child next rest >>= _) = _ at chains
          rw [below] at chains
          cases chains
          obtain ⟨there, last, descends, ends⟩ := inductionHypothesis below
          refine ⟨there, last, ?_, ?_⟩
          · rw [descend, made]
            simp only [found]
            exact descends
          · rw [List.getLast?_cons, ends]
            rfl

theorem descend_append {here there : EnvPath} {key middle : κ} {first second : List String}
    (descends : descend vaults tree here key first = .ok (there, middle)) :
    descend vaults tree here key (first ++ second) = descend vaults tree there middle second := by
  induction first generalizing here key with
  | nil =>
    cases descends
    rfl
  | cons seg rest inductionHypothesis =>
    rw [List.cons_append, descend]
    unfold descend at descends
    split at descends
    · cases descends
    · next child made =>
      split at descends
      · cases descends
      · exact inductionHypothesis descends

/-- A descent along segments goes where they lead. -/
theorem descend_segments {here there : EnvPath} {key last : κ} {segs : List String}
    (descends : descend vaults tree here key segs = .ok (there, last)) : there.segments = here.segments ++ segs := by
  induction segs generalizing here key with
  | nil =>
    cases descends
    rw [List.append_nil]
  | cons seg rest inductionHypothesis =>
    unfold descend at descends
    split at descends
    · cases descends
    · next child made =>
      split at descends
      · cases descends
      · rw [inductionHypothesis descends, EnvPath.child_segments made, List.append_assoc]
        rfl

/-- Two descents agree where every step is alike. -/
theorem descend_congr (vaults' : Vaults κ ν) (tree' : EnvPath → Option (TreeNode ν)) {home : ν → EnvPath}
    {here there : EnvPath} {key last : κ} {segs : List String}
    (descends : descend vaults tree here key segs = .ok (there, last)) (at_home : home (NodeKeys.vaultId key) = here)
    (stays : ∀ k seg child next, home (NodeKeys.vaultId k) = here ∨ (home (NodeKeys.vaultId k)).startsWith here = true →
      (home (NodeKeys.vaultId k)).child seg = some child → there.startsWith child = true →
      nextKey vaults tree k seg child = .ok next →
        home (NodeKeys.vaultId next) = child ∧ nextKey vaults' tree' k seg child = .ok next) :
    descend vaults' tree' here key segs = .ok (there, last) ∧ home (NodeKeys.vaultId last) = there := by
  induction segs generalizing here key with
  | nil =>
    cases descends
    exact ⟨rfl, at_home⟩
  | cons seg rest inductionHypothesis =>
    have whole := descend_segments descends
    unfold descend at descends
    split at descends
    · cases descends
    · next child made =>
      split at descends
      · cases descends
      · next next found =>
        have above : there.startsWith child = true := by
          rw [EnvPath.startsWith_iff, EnvPath.child_segments made, whole]
          exact ⟨rest, by simp⟩
        obtain ⟨moved, same⟩ := stays key seg child next (.inl at_home) (by rw [at_home]; exact made) above found
        have below := inductionHypothesis descends moved fun k s c n place within_ reaches steps =>
          stays k s c n (by
            right
            rcases place with same | under
            · rw [same]
              exact EnvPath.startsWith_child made
            · exact EnvPath.startsWith_trans under (EnvPath.startsWith_child made)) within_ reaches steps
        rw [descend, made]
        simp only [same]
        exact below

/-! ## Held paths -/

theorem deepest_foldl (paths : List EnvPath) (start : Option EnvPath) :
    (∀ h, paths.foldl Local.deeper start = some h → h ∈ paths ∨ start = some h) ∧
      ∀ h, h ∈ paths ∨ start = some h → ∃ d, paths.foldl Local.deeper start = some d ∧ h.depth ≤ d.depth := by
  induction paths generalizing start with
  | nil =>
    refine ⟨fun h same => .inr same, fun h given => ?_⟩
    rcases given with impossible | same
    · cases impossible
    · exact ⟨h, same, Nat.le_refl _⟩
  | cons first rest inductionHypothesis =>
    obtain ⟨among, covers⟩ := inductionHypothesis (Local.deeper start first)
    rw [List.foldl_cons]
    by_cases deeper : start.all (·.depth ≤ first.depth) = true
    · have next : Local.deeper start first = some first := if_pos deeper
      rw [next] at among covers ⊢
      constructor
      · intro h same
        rcases among h same with later | here
        · exact .inl (List.mem_cons_of_mem _ later)
        · exact .inl (Option.some.inj here ▸ List.mem_cons_self)
      · rintro h (member | rfl)
        · rcases List.mem_cons.mp member with rfl | later
          · exact covers h (.inr rfl)
          · exact covers h (.inl later)
        · obtain ⟨d, ends, below⟩ := covers first (.inr rfl)
          have above : h.depth ≤ first.depth := by simpa using deeper
          exact ⟨d, ends, Nat.le_trans above below⟩
    · have next : Local.deeper start first = start := if_neg deeper
      rw [next] at among covers ⊢
      obtain ⟨known, rfl, shallower⟩ : ∃ known, start = some known ∧ first.depth < known.depth := by
        cases start with
        | none => exact absurd rfl deeper
        | some known => exact ⟨known, rfl, by simpa using deeper⟩
      constructor
      · intro h same
        rcases among h same with later | here
        · exact .inl (List.mem_cons_of_mem _ later)
        · exact .inr here
      · rintro h (member | same)
        · rcases List.mem_cons.mp member with rfl | later
          · obtain ⟨d, ends, below⟩ := covers known (.inr rfl)
            exact ⟨d, ends, by omega⟩
          · exact covers h (.inl later)
        · exact covers h (.inr same)

omit [NodeKeys κ ν] in
/-- The deepest held path above a path is held, above it, and as deep as any. -/
theorem heldRootFor_some {owner : Local κ ν} {path h : EnvPath} (found : owner.heldRootFor path = some h) :
    h ∈ owner.held ∧ path.startsWith h = true ∧
      ∀ other ∈ owner.held, path.startsWith other = true → other.depth ≤ h.depth := by
  obtain ⟨among, covers⟩ := deepest_foldl (owner.held.filter fun h => path.startsWith h) none
  have member : h ∈ owner.held.filter fun h => path.startsWith h := by
    rcases among h found with member | impossible
    · exact member
    · cases impossible
  obtain ⟨held, above⟩ := List.mem_filter.mp member
  refine ⟨held, above, fun other otherHeld otherAbove => ?_⟩
  obtain ⟨d, deepest, deeper⟩ := covers other (.inl (List.mem_filter.mpr ⟨otherHeld, otherAbove⟩))
  obtain rfl := Option.some.inj (found.symm.trans deepest)
  exact deeper

omit [NodeKeys κ ν] in
theorem heldRootFor_exists {owner : Local κ ν} {path h : EnvPath} (held : h ∈ owner.held)
    (above : path.startsWith h = true) : ∃ d, owner.heldRootFor path = some d := by
  obtain ⟨_, covers⟩ := deepest_foldl (owner.held.filter fun h => path.startsWith h) none
  obtain ⟨d, deepest, _⟩ := covers h (.inl (List.mem_filter.mpr ⟨held, above⟩))
  exact ⟨d, deepest⟩

omit [NodeKeys κ ν] in
/-- It is the one that is held, above the path, and as deep as any. -/
theorem heldRootFor_eq {owner : Local κ ν} {path h : EnvPath} (held : h ∈ owner.held) (above : path.startsWith h = true)
    (deepest : ∀ other ∈ owner.held, path.startsWith other = true → other.depth ≤ h.depth) :
    owner.heldRootFor path = some h := by
  obtain ⟨d, found⟩ := heldRootFor_exists held above
  obtain ⟨dHeld, dAbove, dDeepest⟩ := heldRootFor_some found
  have same : d = h := by
    have depth : d.segments.length = h.segments.length := Nat.le_antisymm (deepest d dHeld dAbove) (dDeepest h held above)
    rcases EnvPath.startsWith_total dAbove above with one | two
    · exact EnvPath.ext ((EnvPath.startsWith_iff.mp one).eq_of_length depth.symm).symm
    · exact EnvPath.ext ((EnvPath.startsWith_iff.mp two).eq_of_length depth)
  rw [found, same]

omit [NodeKeys κ ν] in
/-- Where a held path lies: at or below the root, or strictly above it. -/
theorem heldRootFor_side {owner : Local κ ν} {p root h : EnvPath} (deepest : owner.heldRootFor p = some h) (under : p.startsWith root = true) :
    h.startsWith root = true ∨ h ≠ root ∧ owner.heldRootFor root = some h := by
  obtain ⟨held, above, covers⟩ := heldRootFor_some deepest
  rcases EnvPath.startsWith_total above under with below | strictly
  · exact .inl below
  · by_cases same : h = root
    · exact .inl (same ▸ h.startsWith_refl)
    · refine .inr ⟨same, heldRootFor_eq held strictly fun other otherHeld otherAbove => ?_⟩
      exact covers other otherHeld (EnvPath.startsWith_trans under otherAbove)

omit [NodeKeys κ ν] in
/-- A root that is held has the chains below it begin at or below it. -/
theorem heldRootFor_held {owner : Local κ ν} {p root : EnvPath} (held : root ∈ owner.held) (under : p.startsWith root = true) :
    ∃ h, owner.heldRootFor p = some h ∧ h.startsWith root = true := by
  obtain ⟨h, deepest⟩ := heldRootFor_exists held under
  refine ⟨h, deepest, ?_⟩
  obtain ⟨_, above, covers⟩ := heldRootFor_some deepest
  rcases EnvPath.startsWith_total above under with below | strictly
  · exact below
  · have deep : root.segments.length ≤ h.segments.length := covers root held under
    rw [EnvPath.ext ((EnvPath.startsWith_iff.mp strictly).eq_of_length_le deep)]
    exact root.startsWith_refl

/-! ## What the records lead to -/

/-- The vaults that a record's keys lead to are those of the node's children. -/
def AtHome (home : ν → EnvPath) (vaults : Vaults κ ν) : Prop :=
  ∀ k record seg e s p, vaults (NodeKeys.vaultId k) = some record → record.get seg = some e → e.mode.key k seg = some s →
    (home (NodeKeys.vaultId k)).child seg = some p → home (NodeKeys.vaultId s) = p

/-- The nodes below a root that the records lead to, and the keys they lead to them with:
the one an entry has, or, if that opens no vault, the one that is held for the node. -/
inductive Leads (vaults : Vaults κ ν) (keys : EnvPath → Option κ) (root : EnvPath) (rootKey : κ) : EnvPath → κ → Prop where
  | root : Leads vaults keys root rootKey root rootKey
  | entry {q p : EnvPath} {parentKey k : κ} {record : ChildrenRecord κ} {seg : String} {e : ChildEntry κ} :
    Leads vaults keys root rootKey q parentKey → q.child seg = some p →
      vaults (NodeKeys.vaultId parentKey) = some record → record.get seg = some e → e.mode.key parentKey seg = some k →
      (vaults (NodeKeys.vaultId k)).isSome → Leads vaults keys root rootKey p k
  | held {q p : EnvPath} {parentKey k s : κ} {record : ChildrenRecord κ} {seg : String} {e : ChildEntry κ} :
    Leads vaults keys root rootKey q parentKey → q.child seg = some p →
      vaults (NodeKeys.vaultId parentKey) = some record → record.get seg = some e → e.mode.key parentKey seg = some k →
      vaults (NodeKeys.vaultId k) = none → keys p = some s → (vaults (NodeKeys.vaultId s)).isSome →
      Leads vaults keys root rootKey p s

/-- A child's key is read off its parent's as the tree says it is. -/
def Reads (vaults : Vaults κ ν) (parentKey : κ) (seg : String) (k : κ) : Bool → Prop
  | false => k = NodeKeys.child parentKey seg
  | true => ∃ record e, vaults (NodeKeys.vaultId parentKey) = some record ∧ record.get seg = some e ∧
      e.mode.key parentKey seg = some k

theorem Reads.nextKey {parentKey k : κ} {seg : String} {isSealed : Bool} {child : EnvPath}
    (reads : Reads vaults parentKey seg k isSealed) (recorded : (tree child).any (·.isSealed) = isSealed) :
    nextKey vaults tree parentKey seg child = .ok k := by
  unfold Owner.nextKey
  rw [recorded]
  cases isSealed with
  | false =>
    obtain rfl := reads
    rfl
  | true =>
    obtain ⟨record, e, there, listed, opens⟩ := reads
    simp [there, listed, opens]

namespace EnvPath

/-- A child of a node below a root is not the root. -/
theorem child_ne_root {q p root : EnvPath} {seg : String} (made : q.child seg = some p)
    (under : q.startsWith root = true) : p ≠ root := by
  rintro rfl
  have short := (startsWith_iff.mp under).length_le
  rw [child_segments made, List.length_append, List.length_singleton] at short
  omega

end EnvPath

/-! ## The walk -/

section Walk

/-- What a walk knows: the nodes it has listed are listed once, each below an opened one;
an opened node is one the records led to at first, and its key is read off its parent's
as the tree found says; and what the walk changed of the records are entries of opened
nodes. -/
structure Sound (home : ν → EnvPath) (keys : EnvPath → Option κ) (start : Vaults κ ν) (root : EnvPath) (rootKey : κ)
    (rootSealed : Bool) (walk : Walk κ ν) (pending : List (Visit κ)) : Prop where
  distinct : (pending.map (·.path) ++ (walk.unreachable ++ walk.opened.map Prod.fst)).Nodup
  above : ∀ p ∈ pending.map (·.path) ++ (walk.unreachable ++ walk.opened.map Prod.fst),
    p = root ∨ ∃ q k seg, (q, k) ∈ walk.opened ∧ q.child seg = some p
  opened : ∀ p k, (p, k) ∈ walk.opened → Leads start keys root rootKey p k ∧ home (NodeKeys.vaultId k) = p ∧
    p.startsWith root = true ∧ (walk.vaults (NodeKeys.vaultId k)).isSome
  recorded : ∀ p k, (p, k) ∈ walk.opened → (p = root ∧ k = rootKey ∧ walk.found p = some ⟨NodeKeys.vaultId k, rootSealed⟩) ∨
    ∃ q parentKey seg isSealed, (q, parentKey) ∈ walk.opened ∧ q.child seg = some p ∧
      walk.found p = some ⟨NodeKeys.vaultId k, isSealed⟩ ∧ Reads walk.vaults parentKey seg k isSealed
  pending : ∀ visit ∈ pending, visit = ⟨root, rootKey, rootSealed, none⟩ ∨
    ∃ q parentKey seg, (q, parentKey) ∈ walk.opened ∧ q.child seg = some visit.path ∧ visit.parentKey = some parentKey ∧
      Reads walk.vaults parentKey seg visit.key visit.isSealed ∧
      ∃ record e, start (NodeKeys.vaultId parentKey) = some record ∧ record.get seg = some e ∧
        e.mode.key parentKey seg = some visit.key
  found : ∀ p node, walk.found p = some node → p.startsWith root = true
  same : ∀ v, (walk.vaults v).isSome = (start v).isSome
  entries : ∀ v record old seg p, walk.vaults v = some record → start v = some old → (home v).child seg = some p →
    p ∉ walk.opened.map Prod.fst ∨ p = root → record.get seg = old.get seg
  atHome : AtHome home walk.vaults

variable {home : ν → EnvPath} {keys : EnvPath → Option κ} {start : Vaults κ ν} {root : EnvPath} {rootKey : κ}
  {rootSealed : Bool} {walk : Walk κ ν} {pending : List (Visit κ)} {visit : Visit κ} {rest : List (Visit κ)}

/-- What is listed is below the root. -/
theorem Sound.under (sound : Sound home keys start root rootKey rootSealed walk pending) {p : EnvPath}
    (listed : p ∈ pending.map (·.path) ++ (walk.unreachable ++ walk.opened.map Prod.fst)) : p.startsWith root = true := by
  rcases sound.above p listed with rfl | ⟨q, k, seg, member, made⟩
  · exact p.startsWith_refl
  · exact EnvPath.startsWith_trans (EnvPath.startsWith_child made) (sound.opened q k member).2.2.1

/-- What is visited for an entry of a node's record. -/
theorem visitOf_spec {path : EnvPath} {key : κ} {e : ChildEntry κ} {v : Visit κ} (given : visitOf path key e = some v) :
    path.child e.seg = some v.path ∧ e.mode.key key e.seg = some v.key ∧ v.parentKey = some key ∧
      v.isSealed = e.mode.isSealed := by
  unfold visitOf at given
  split at given
  · cases given
  · next child made =>
    obtain ⟨k, opens, rfl⟩ := Option.map_eq_some_iff.mp given
    exact ⟨made, opens, rfl, rfl⟩

/-- The visits below a node are of distinct children. -/
theorem visitsBelow_distinct (path : EnvPath) (key : κ) (record : ChildrenRecord κ) :
    ((visitsBelow path key record).map (·.path)).Nodup := by
  have distinct : record.children.Pairwise fun a b => a.seg ≠ b.seg := List.pairwise_map.mp record.distinct
  rw [List.Nodup, List.pairwise_map]
  apply distinct.filterMap
  intro a b different v given w given' same
  obtain ⟨made, _⟩ := visitOf_spec given
  obtain ⟨made', _⟩ := visitOf_spec given'
  exact different (EnvPath.child_injective made (same ▸ made')).2

/-- Opening a node: its key is one the records led to, read off its parent's; its vault's
record is read, and the children it lists are to be visited. The records may have been
changed, but for entries of other nodes. -/
theorem Sound.opens (sound : Sound home keys start root rootKey rootSealed walk (visit :: rest)) {key : κ}
    {isSealed : Bool} {vaults' : Vaults κ ν} {record : ChildrenRecord κ}
    (leads : Leads start keys root rootKey visit.path key) (at_home : home (NodeKeys.vaultId key) = visit.path)
    (recorded : (visit.path = root ∧ key = rootKey ∧ isSealed = rootSealed) ∨ ∃ q parentKey seg,
      (q, parentKey) ∈ walk.opened ∧ q.child seg = some visit.path ∧ Reads vaults' parentKey seg key isSealed)
    (same : ∀ v, (vaults' v).isSome = (walk.vaults v).isSome)
    (others : ∀ v record old seg p, vaults' v = some record → walk.vaults v = some old → (home v).child seg = some p →
      p ≠ visit.path ∨ p = root → record.get seg = old.get seg)
    (atHome : AtHome home vaults') (found : vaults' (NodeKeys.vaultId key) = some record) :
    Sound home keys start root rootKey rootSealed
      { vaults := vaults'
        found := Function.update walk.found visit.path (some ⟨NodeKeys.vaultId key, isSealed⟩)
        unreachable := walk.unreachable
        opened := (visit.path, key) :: walk.opened } ((visitsBelow visit.path key record).reverse ++ rest) := by
  have listed : visit.path ∈ (visit :: rest).map (·.path) ++ (walk.unreachable ++ walk.opened.map Prod.fst) := by simp
  have under := sound.under listed
  obtain ⟨fresh, distinct⟩ := List.nodup_cons.mp (show (visit.path :: (rest.map (·.path) ++
    (walk.unreachable ++ walk.opened.map Prod.fst))).Nodup from sound.distinct)
  have unopened : ∀ k, (visit.path, k) ∉ walk.opened := by
    intro k member
    apply fresh
    simp only [List.mem_append, List.mem_map]
    exact .inr (.inr ⟨_, member, rfl⟩)
  -- A child of the node is not listed yet: what is listed is the root or below an opened node.
  have new : ∀ seg p, visit.path.child seg = some p →
      p ∉ (visit :: rest).map (·.path) ++ (walk.unreachable ++ walk.opened.map Prod.fst) := by
    intro seg p made member
    rcases sound.above p member with rfl | ⟨q, k, seg', opened, made'⟩
    · exact EnvPath.child_ne_root made under rfl
    · obtain ⟨rfl, _⟩ := EnvPath.child_injective made made'
      exact unopened k opened
  -- What was read off a record of another node still is.
  have still : ∀ q parentKey seg p k flag, (q, parentKey) ∈ walk.opened → q.child seg = some p → p ≠ visit.path →
      Reads walk.vaults parentKey seg k flag → Reads vaults' parentKey seg k flag := by
    intro q parentKey seg p k flag opened made other reads
    cases flag with
    | false => exact reads
    | true =>
      obtain ⟨old, e, there, held, opens⟩ := reads
      have exists' : (vaults' (NodeKeys.vaultId parentKey)).isSome := by
        rw [same, there]
        rfl
      obtain ⟨record', there'⟩ := Option.isSome_iff_exists.mp exists'
      have kept := others _ record' old seg p there' there (by rw [(sound.opened q parentKey opened).2.1]; exact made)
        (.inl other)
      exact ⟨record', e, there', kept.trans held, opens⟩
  constructor
  case distinct =>
    have children := visitsBelow_distinct visit.path key record
    have apart : ∀ p ∈ (visitsBelow visit.path key record).map (·.path),
        p ∉ visit.path :: (rest.map (·.path) ++ (walk.unreachable ++ walk.opened.map Prod.fst)) := by
      intro p member
      obtain ⟨v, below, rfl⟩ := List.mem_map.mp member
      obtain ⟨e, _, given⟩ := List.mem_filterMap.mp below
      exact new e.seg v.path (visitOf_spec given).1
    change (((visitsBelow visit.path key record).reverse ++ rest).map (·.path) ++
      (walk.unreachable ++ visit.path :: walk.opened.map Prod.fst)).Nodup
    have listing : (((visitsBelow visit.path key record).reverse ++ rest).map (·.path) ++
        (walk.unreachable ++ visit.path :: walk.opened.map Prod.fst)).Perm
        ((visitsBelow visit.path key record).map (·.path) ++
          visit.path :: (rest.map (·.path) ++ (walk.unreachable ++ walk.opened.map Prod.fst))) := by
      rw [List.map_append, List.append_assoc]
      apply List.Perm.append
      · exact (List.reverse_perm _).map _
      · rw [← List.append_assoc, ← List.append_assoc]
        exact List.perm_middle
    rw [listing.nodup_iff, List.nodup_append]
    exact ⟨children, List.nodup_cons.mpr ⟨fresh, distinct⟩, fun p member q listed same => apart p member (same ▸ listed)⟩
  case above =>
    intro p member
    rw [List.map_append, List.append_assoc] at member
    rcases List.mem_append.mp member with below | old
    · obtain ⟨v, reversed, rfl⟩ := List.mem_map.mp below
      obtain ⟨e, _, given⟩ := List.mem_filterMap.mp (List.mem_reverse.mp reversed)
      exact .inr ⟨visit.path, key, e.seg, List.mem_cons_self, (visitOf_spec given).1⟩
    · have known : p ∈ (visit :: rest).map (·.path) ++ (walk.unreachable ++ walk.opened.map Prod.fst) := by
        simp only [List.mem_append, List.map_cons, List.mem_cons] at old ⊢
        tauto
      rcases sound.above p known with rfl | ⟨q, k, seg, opened, made⟩
      · exact .inl rfl
      · exact .inr ⟨q, k, seg, List.mem_cons_of_mem _ opened, made⟩
  case opened =>
    intro p k member
    rcases List.mem_cons.mp member with here | old
    · cases here
      exact ⟨leads, at_home, under, Option.isSome_iff_exists.mpr ⟨record, found⟩⟩
    · obtain ⟨led, home, below, there⟩ := sound.opened p k old
      exact ⟨led, home, below, (same _).trans there⟩
  case recorded =>
    intro p k member
    rcases List.mem_cons.mp member with here | old
    · cases here
      rcases recorded with ⟨rfl, rfl, rfl⟩ | ⟨q, parentKey, seg, opened, made, reads⟩
      · exact .inl ⟨rfl, rfl, Function.update_self ..⟩
      · exact .inr ⟨q, parentKey, seg, isSealed, List.mem_cons_of_mem _ opened, made, Function.update_self .., reads⟩
    · have other : p ≠ visit.path := fun here => unopened k (here ▸ old)
      rcases sound.recorded p k old with ⟨atRoot, rootsKey, noted⟩ | ⟨q, parentKey, seg, flag, opened, made, noted, reads⟩
      · exact .inl ⟨atRoot, rootsKey, (Function.update_of_ne other ..).trans noted⟩
      · exact .inr ⟨q, parentKey, seg, flag, List.mem_cons_of_mem _ opened, made,
          (Function.update_of_ne other ..).trans noted, still q parentKey seg p k flag opened made other reads⟩
  case pending =>
    intro v member
    rcases List.mem_append.mp member with reversed | old
    · obtain ⟨e, listed, given⟩ := List.mem_filterMap.mp (List.mem_reverse.mp reversed)
      obtain ⟨made, opens, parent, flag⟩ := visitOf_spec given
      have held := ChildrenRecord.get_of_mem listed
      have fresh := new e.seg v.path made
      have notOpened : v.path ∉ walk.opened.map Prod.fst := fun member => fresh (by simp [member])
      have notHere : v.path ≠ visit.path := fun here => fresh (by simp [here])
      have before : (walk.vaults (NodeKeys.vaultId key)).isSome := by
        rw [← same, found]
        rfl
      obtain ⟨middle, there⟩ := Option.isSome_iff_exists.mp before
      obtain ⟨first, started⟩ := Option.isSome_iff_exists.mp ((sound.same _).symm.trans before)
      have kept := others _ record middle e.seg v.path found there (by rw [at_home]; exact made) (.inl notHere)
      have kept' := sound.entries _ middle first e.seg v.path there started (by rw [at_home]; exact made) (.inl notOpened)
      refine .inr ⟨visit.path, key, e.seg, List.mem_cons_self, made, parent, ?_, first, e, started, ?_, opens⟩
      · rw [flag]
        cases mode : e.mode with
        | derived =>
          rw [mode] at opens
          exact (Option.some.inj opens).symm
        | sealed _ => exact ⟨record, e, found, held, opens⟩
      · exact kept'.symm.trans (kept.symm.trans held)
    · have notHere : v.path ≠ visit.path := by
        intro here
        apply fresh
        rw [← here]
        exact List.mem_append_left _ (List.mem_map_of_mem old)
      rcases sound.pending v (List.mem_cons_of_mem _ old) with first | ⟨q, parentKey, seg, opened, made, parent, reads, entry⟩
      · exact .inl first
      · exact .inr ⟨q, parentKey, seg, List.mem_cons_of_mem _ opened, made, parent,
          still q parentKey seg v.path v.key v.isSealed opened made notHere reads, entry⟩
  case found =>
    intro p node noted
    by_cases here : p = visit.path
    · rw [here]
      exact under
    · exact sound.found p node ((Function.update_of_ne here ..).symm.trans noted)
  case same => exact fun v => (same v).trans (sound.same v)
  case entries =>
    intro v record' old seg p there started made apart
    have before : (walk.vaults v).isSome := (same v).symm.trans (Option.isSome_iff_exists.mpr ⟨record', there⟩)
    obtain ⟨middle, between⟩ := Option.isSome_iff_exists.mp before
    have kept := others v record' middle seg p there between made (by
      rcases apart with unlisted | atRoot
      · exact .inl fun here => unlisted (by simp [here])
      · exact .inr atRoot)
    have kept' := sound.entries v middle old seg p between started made (by
      rcases apart with unlisted | atRoot
      · exact .inl fun member => unlisted (List.mem_cons_of_mem _ member)
      · exact .inr atRoot)
    exact kept.trans kept'
  case atHome => exact atHome

/-- A node that could not be opened is listed as such. -/
theorem Sound.misses (sound : Sound home keys start root rootKey rootSealed walk (visit :: rest)) (node : TreeNode ν) :
    Sound home keys start root rootKey rootSealed
      { walk with
        found := Function.update walk.found visit.path (some node)
        unreachable := walk.unreachable ++ [visit.path] } rest := by
  have listed : visit.path ∈ (visit :: rest).map (·.path) ++ (walk.unreachable ++ walk.opened.map Prod.fst) := by simp
  have under := sound.under listed
  have fresh := (List.nodup_cons.mp (show (visit.path :: (rest.map (·.path) ++
    (walk.unreachable ++ walk.opened.map Prod.fst))).Nodup from sound.distinct)).1
  have listing : (rest.map (·.path) ++ (walk.unreachable ++ [visit.path] ++ walk.opened.map Prod.fst)).Perm
      ((visit :: rest).map (·.path) ++ (walk.unreachable ++ walk.opened.map Prod.fst)) := by
    rw [List.append_assoc, ← List.append_assoc, List.map_cons, List.cons_append, ← List.append_assoc]
    exact List.perm_middle
  refine ⟨listing.nodup_iff.mpr sound.distinct, fun p member => sound.above p (listing.mem_iff.mp member), sound.opened,
    ?_, fun v member => sound.pending v (List.mem_cons_of_mem _ member), ?_, sound.same, sound.entries, sound.atHome⟩
  · intro p k member
    have other : p ≠ visit.path := by
      rintro rfl
      apply fresh
      simp only [List.mem_append, List.mem_map]
      exact .inr (.inr ⟨_, member, rfl⟩)
    simpa only [Function.update_of_ne other] using sound.recorded p k member
  · intro p noted given
    by_cases here : p = visit.path
    · rw [here]
      exact under
    · exact sound.found p noted ((Function.update_of_ne here ..).symm.trans given)

variable [DecidableEq ν] {owner : Local κ ν}

theorem relink_some {vaults vaults' : Vaults κ ν} {held : κ} (relinked : relink owner vaults visit = some (held, vaults')) :
    ∃ parentKey, visit.parentKey = some parentKey ∧ owner.keys visit.path = some held ∧
      (vaults (NodeKeys.vaultId held)).isSome ∧
        ∀ record, vaults (NodeKeys.vaultId parentKey) = some record →
          vaults' = Function.update vaults (NodeKeys.vaultId parentKey) (some (record.sealChild visit.path.last held)) := by
  unfold relink at relinked
  simp only [Option.bind_eq_bind, Option.bind_eq_some_iff] at relinked
  obtain ⟨parentKey, parent, _, _, s, stored, relinked⟩ := relinked
  split at relinked
  · cases relinked
  · simp only [Option.bind_eq_some_iff] at relinked
    obtain ⟨record, there, relinked⟩ := relinked
    refine ⟨parentKey, parent, ?_⟩
    split at relinked
    · next old found =>
      cases relinked
      refine ⟨stored, by rw [there]; rfl, ?_⟩
      intro record found'
      obtain rfl := Option.some.inj (found.symm.trans found')
      rfl
    · next missing =>
      cases relinked
      refine ⟨stored, by rw [there]; rfl, ?_⟩
      intro record found'
      rw [missing] at found'
      cases found'

/-- What is assumed of the keys that are held and of the records at first: each is for
one node. -/
structure Homed (home : ν → EnvPath) (keys : EnvPath → Option κ) (vaults : Vaults κ ν) : Prop where
  derived : ∀ (k : κ) seg p, (home (NodeKeys.vaultId k)).child seg = some p → home (NodeKeys.vaultId (NodeKeys.child k seg)) = p
  stored : ∀ p (s : κ), keys p = some s → home (NodeKeys.vaultId s) = p
  records : AtHome home vaults

/-- A node is opened with its own key, or with the one that is held for it. -/
theorem Sound.openNode (sound : Sound home owner.keys start root rootKey rootSealed walk (visit :: rest))
    (homed : Homed home owner.keys start) (homeRoot : home (NodeKeys.vaultId rootKey) = root) {key : κ} {isSealed : Bool}
    {vaults' : Vaults κ ν} {record : ChildrenRecord κ} (opens : openNode owner walk.vaults visit = some (key, isSealed, vaults'))
    (found : vaults' (NodeKeys.vaultId key) = some record) :
    Sound home owner.keys start root rootKey rootSealed
      { vaults := vaults'
        found := Function.update walk.found visit.path (some ⟨NodeKeys.vaultId key, isSealed⟩)
        unreachable := walk.unreachable
        opened := (visit.path, key) :: walk.opened } ((visitsBelow visit.path key record).reverse ++ rest) := by
  have listing := sound.pending visit List.mem_cons_self
  unfold Owner.openNode at opens
  split at opens
  · next there =>
    -- Its own key opens its vault.
    cases opens
    have exists' : (start (NodeKeys.vaultId visit.key)).isSome := by
      rw [← sound.same, there]
      rfl
    apply sound.opens _ _ _ (fun _ => rfl) _ sound.atHome found
    · rcases listing with rfl | ⟨q, parentKey, seg, opened, made, _, _, first, e, started, listed, opensTo⟩
      · exact .root
      · exact .entry (sound.opened q parentKey opened).1 made started listed opensTo exists'
    · rcases listing with rfl | ⟨q, parentKey, seg, opened, made, _, _, first, e, started, listed, opensTo⟩
      · exact homeRoot
      · apply homed.records parentKey first seg e visit.key visit.path started listed opensTo
        rw [(sound.opened q parentKey opened).2.1]
        exact made
    · rcases listing with rfl | ⟨q, parentKey, seg, opened, made, _, reads, _⟩
      · exact .inl ⟨rfl, rfl, rfl⟩
      · exact .inr ⟨q, parentKey, seg, opened, made, reads⟩
    · intro v record old seg p there there' _ _
      obtain rfl := Option.some.inj (there.symm.trans there')
      rfl
  · next missing =>
    obtain ⟨⟨held, relinked⟩, relinks, same⟩ := Option.map_eq_some_iff.mp opens
    cases same
    obtain ⟨parentKey, parent, stored, exists', changes⟩ := relink_some relinks
    rcases listing with rfl | ⟨q, otherKey, seg, opened, made, parent', _, first, e, started, listed, opensTo⟩
    · cases parent
    obtain rfl := Option.some.inj (parent.symm.trans parent')
    obtain ⟨led, qHome, under, there⟩ := sound.opened q parentKey opened
    obtain ⟨old, before⟩ := Option.isSome_iff_exists.mp there
    obtain rfl := changes old before
    have seg_last : visit.path.last = seg := EnvPath.child_last made
    rw [seg_last] at found ⊢
    have notRoot : visit.path ≠ root := EnvPath.child_ne_root made under
    have startMissing : start (NodeKeys.vaultId visit.key) = none := by
      have none := sound.same (NodeKeys.vaultId visit.key)
      rw [missing] at none
      simpa using none.symm
    have homeHeld := homed.stored visit.path key stored
    apply sound.opens _ homeHeld _ _ _ _ found
    · refine .held led made started listed opensTo startMissing stored ?_
      rw [← sound.same]
      exact exists'
    · right
      refine ⟨q, parentKey, seg, opened, made, old.sealChild seg key, ⟨seg, .sealed (some key)⟩, ?_, ?_, rfl⟩
      · exact Function.update_self ..
      · exact old.get_sealChild_self seg key
    · intro v
      by_cases here : v = NodeKeys.vaultId parentKey
      · subst here
        rw [Function.update_self, before]
        rfl
      · rw [Function.update_of_ne here]
    · intro v record' old' seg' p given given' made' apart
      by_cases here : v = NodeKeys.vaultId parentKey
      · subst here
        rw [Function.update_self] at given
        obtain rfl := Option.some.inj given
        obtain rfl := Option.some.inj (before.symm.trans given')
        rw [qHome] at made'
        apply old.get_sealChild_other
        rintro rfl
        obtain rfl := Option.some.inj (made'.symm.trans made)
        rcases apart with other | atRoot
        · exact other rfl
        · exact notRoot atRoot
      · rw [Function.update_of_ne here] at given
        obtain rfl := Option.some.inj (given.symm.trans given')
        rfl
    · intro k record' seg' e' s p given listed' opens' made'
      by_cases here : NodeKeys.vaultId k = NodeKeys.vaultId parentKey
      · rw [here, Function.update_self] at given
        obtain rfl := Option.some.inj given
        by_cases same : seg' = seg
        · subst same
          rw [old.get_sealChild_self] at listed'
          obtain rfl := Option.some.inj listed'
          obtain rfl := Option.some.inj opens'
          rw [here, qHome] at made'
          rw [homeHeld]
          exact Option.some.inj (made.symm.trans made')
        · rw [old.get_sealChild_other key same] at listed'
          exact sound.atHome k old seg' e' s p (by rw [here]; exact before) listed' opens' made'
      · rw [Function.update_of_ne here] at given
        exact sound.atHome k record' seg' e' s p given listed' opens' made'

/-- A walk that ends knows what it should, and has nothing left to visit. -/
theorem walkFrom_sound (homed : Homed home owner.keys start) (homeRoot : home (NodeKeys.vaultId rootKey) = root) {nodes : Nat}
    {ended : Walk κ ν} (sound : Sound home owner.keys start root rootKey rootSealed walk pending)
    (walks : walkFrom owner root nodes walk pending = .ok ended) :
    Sound home owner.keys start root rootKey rootSealed ended [] := by
  induction nodes generalizing walk pending with
  | zero => cases walks
  | succ nodes inductionHypothesis =>
    cases pending with
    | nil =>
      cases walks
      exact sound
    | cons visit rest =>
      unfold walkFrom at walks
      split at walks
      · split at walks
        · cases walks
        · exact inductionHypothesis (sound.misses _) walks
      · next key isSealed vaults' opens =>
        split at walks
        · cases walks
        · next record found => exact inductionHypothesis (sound.openNode homed homeRoot opens found) walks

omit [DecidableEq ν] in
/-- A walk that begins. -/
theorem sound_begins (rootSealed : Bool) (homed : Homed home keys start) :
    Sound home keys start root rootKey rootSealed ⟨start, fun _ => none, [], []⟩ [⟨root, rootKey, rootSealed, none⟩] where
  distinct := List.nodup_singleton _
  above p member := .inl (by simpa using member)
  opened p k member := by cases member
  recorded p k member := by cases member
  pending visit member := .inl (List.mem_singleton.mp member)
  found p node noted := by cases noted
  same v := rfl
  entries v record old seg p there there' _ _ := by rw [Option.some.inj (there.symm.trans there')]
  atHome := homed.records

end Walk

/-! ## Chains after a rediscovery -/

/-- A path's chain ends in a key of the vault that the tree records for it. -/
def Agrees (owner : Local κ ν) (vaults : Vaults κ ν) (path : EnvPath) : Prop :=
  ∃ keys key node, chain owner vaults path = .ok keys ∧ keys.getLast? = some (path, key) ∧
    owner.tree path = some node ∧ node.vaultId = NodeKeys.vaultId key

instance [DecidableEq ν] (owner : Local κ ν) (vaults : Vaults κ ν) (path : EnvPath) : Decidable (Agrees owner vaults path) :=
  match chains : chain owner vaults path with
  | .error _ => isFalse fun ⟨_, _, _, same, _⟩ => by rw [chains] at same; cases same
  | .ok keys =>
    match last : keys.getLast? with
    | none => isFalse fun ⟨_, _, _, same, ends, _⟩ => by
        rw [chains] at same
        cases same
        rw [last] at ends
        cases ends
    | some (there, key) =>
      match noted : owner.tree path with
      | none => isFalse fun ⟨_, _, _, _, _, given, _⟩ => by rw [noted] at given; cases given
      | some node =>
        if same : there = path ∧ node.vaultId = NodeKeys.vaultId key then
          isTrue ⟨keys, key, node, chains, by rw [last, same.1], noted, same.2⟩
        else isFalse fun ⟨_, _, _, same', ends, given, records⟩ => same (by
          rw [chains] at same'
          cases same'
          rw [last] at ends
          cases ends
          rw [noted] at given
          cases given
          exact ⟨rfl, records⟩)

/-- Each key that is held below a root is the one the records lead to. -/
def Settled (vaults : Vaults κ ν) (owner : Local κ ν) (root : EnvPath) (rootKey : κ) : Prop :=
  ∀ h ∈ owner.held, h ≠ root → ∀ key, Leads vaults owner.keys root rootKey h key → owner.keys h = some key

section Ended

variable {home : ν → EnvPath} {keys : EnvPath → Option κ} {start : Vaults κ ν} {root : EnvPath} {rootKey : κ}
  {rootSealed : Bool} {walk : Walk κ ν} {owner : Local κ ν}

/-- A node is opened with one key. -/
theorem Sound.unique (sound : Sound home keys start root rootKey rootSealed walk []) {p : EnvPath} {k k' : κ}
    (one : (p, k) ∈ walk.opened) (other : (p, k') ∈ walk.opened) : k = k' := by
  have distinct : (walk.opened.map Prod.fst).Nodup := (List.nodup_append.mp sound.distinct).2.1.of_append_right
  exact congrArg Prod.snd (List.inj_on_of_nodup_map distinct one other rfl)

/-- The root is opened with its own key. -/
theorem Sound.root_key (sound : Sound home keys start root rootKey rootSealed walk []) {k : κ}
    (opened : (root, k) ∈ walk.opened) : k = rootKey ∧ walk.found root = some ⟨NodeKeys.vaultId rootKey, rootSealed⟩ := by
  rcases sound.recorded root k opened with ⟨_, rfl, noted⟩ | ⟨q, parentKey, seg, _, parent, made, _⟩
  · exact ⟨rfl, noted⟩
  · exact absurd rfl (EnvPath.child_ne_root made (sound.opened q parentKey parent).2.2.1)

/-- What is recorded of an opened node. -/
theorem Sound.recorded_vault (sound : Sound home keys start root rootKey rootSealed walk []) {p : EnvPath} {k : κ}
    (opened : (p, k) ∈ walk.opened) : ∃ isSealed, walk.found p = some ⟨NodeKeys.vaultId k, isSealed⟩ := by
  rcases sound.recorded p k opened with ⟨_, _, noted⟩ | ⟨_, _, _, isSealed, _, _, noted, _⟩
  · exact ⟨_, noted⟩
  · exact ⟨isSealed, noted⟩

omit [NodeKeys κ ν] in
theorem replanted_found {tree : EnvPath → Option (TreeNode ν)} {p : EnvPath} {node : TreeNode ν}
    (noted : walk.found p = some node) : replanted tree root walk p = some node := by
  unfold replanted
  rw [noted]

/-- From an opened node, the records and the tree found lead down to each opened node
below it. -/
theorem Sound.descends (sound : Sound home keys start root rootKey rootSealed walk [])
    (tree : EnvPath → Option (TreeNode ν)) {p h : EnvPath} {k : κ} (opened : (p, k) ∈ walk.opened)
    (above : p.startsWith h = true) (under : h.startsWith root = true) :
    ∃ kh, (h, kh) ∈ walk.opened ∧
      descend walk.vaults (replanted tree root walk) h kh (p.segments.drop h.depth) = .ok (p, k) := by
  induction deep : p.segments.length generalizing p k with
  | zero => exact absurd (List.length_eq_zero_iff.mp deep) p.nonempty
  | succ depth inductionHypothesis =>
    by_cases here : p = h
    · subst here
      refine ⟨k, opened, ?_⟩
      rw [EnvPath.depth, List.drop_length]
      rfl
    · rcases sound.recorded p k opened with ⟨rfl, _⟩ | ⟨q, parentKey, seg, isSealed, parent, made, noted, reads⟩
      · exact absurd (EnvPath.startsWith_antisymm above under) here
      · have above' : q.startsWith h = true := (EnvPath.startsWith_parent made above).resolve_left here
        have segments := EnvPath.child_segments made
        have shorter : q.segments.length = depth := by
          rw [segments, List.length_append, List.length_singleton] at deep
          omega
        obtain ⟨kh, top, descends⟩ := inductionHypothesis parent above' shorter
        refine ⟨kh, top, ?_⟩
        have room : h.depth ≤ q.segments.length := (EnvPath.startsWith_iff.mp above').length_le
        rw [segments, List.drop_append_of_le_length room, descend_append descends, descend, made]
        have recorded : (replanted tree root walk p).any (·.isSealed) = isSealed := by
          rw [replanted_found noted]
          rfl
        simp only [reads.nextKey recorded]
        rfl

theorem agrees_of_descend {vaults : Vaults κ ν} {p h : EnvPath} {k kh : κ}
    (deepest : owner.heldRootFor p = some h) (stored : owner.keys h = some kh)
    (descends : descend vaults owner.tree h kh (p.segments.drop h.depth) = .ok (p, k))
    (recorded : ∃ isSealed, owner.tree p = some ⟨NodeKeys.vaultId k, isSealed⟩) : Agrees owner vaults p := by
  obtain ⟨isSealed, noted⟩ := recorded
  obtain ⟨list, chains, ends⟩ := chainFrom_of_descend descends
  refine ⟨list, k, _, ?_, ends, noted, rfl⟩
  unfold chain
  rw [deepest]
  simp only [stored]
  exact chains

theorem descend_of_chain {vaults : Vaults κ ν} {p : EnvPath} {list : List (EnvPath × κ)}
    (chains : chain owner vaults p = .ok list) : ∃ h kh k, owner.heldRootFor p = some h ∧ owner.keys h = some kh ∧
      descend vaults owner.tree h kh (p.segments.drop h.depth) = .ok (p, k) ∧ list.getLast? = some (p, k) := by
  unfold chain at chains
  split at chains
  · cases chains
  · next h deepest =>
    split at chains
    · cases chains
    · next kh stored =>
      obtain ⟨there, last, descends, ends⟩ := descend_of_chainFrom chains
      have whole := descend_segments descends
      obtain ⟨_, above, _⟩ := heldRootFor_some deepest
      have same : there = p := by
        apply EnvPath.ext
        rw [whole]
        exact List.prefix_iff_eq_append.mp (EnvPath.startsWith_iff.mp above)
      subst same
      exact ⟨h, kh, last, deepest, stored, descends, ends⟩

/-- A chain that begins at or below the root leads to the vault that was opened, if the
keys held there are those the vaults were opened with. -/
theorem Sound.agrees_below (sound : Sound home keys start root rootKey rootSealed walk [])
    {tree : EnvPath → Option (TreeNode ν)} (planted : owner.tree = replanted tree root walk) {p h : EnvPath} {k : κ}
    (opened : (p, k) ∈ walk.opened) (deepest : owner.heldRootFor p = some h) (under : h.startsWith root = true)
    (holds : ∀ kh, (h, kh) ∈ walk.opened → owner.keys h = some kh) : Agrees owner walk.vaults p := by
  obtain ⟨_, above, _⟩ := heldRootFor_some deepest
  obtain ⟨kh, top, descends⟩ := sound.descends tree opened above under
  obtain ⟨isSealed, noted⟩ := sound.recorded_vault opened
  rw [← planted] at descends
  exact agrees_of_descend deepest (holds kh top) descends ⟨isSealed, by rw [planted]; exact replanted_found noted⟩

/-- A child's key is one of a vault of the child's. -/
theorem nextKey_home {vaults : Vaults κ ν} (homed : Homed home keys vaults) {tree : EnvPath → Option (TreeNode ν)} {k next : κ}
    {seg : String} {child : EnvPath} (made : (home (NodeKeys.vaultId k)).child seg = some child)
    (found : nextKey vaults tree k seg child = .ok next) : home (NodeKeys.vaultId next) = child := by
  unfold nextKey at found
  split at found
  · split at found
    · cases found
    · next record there =>
      split at found
      · cases found
      · next e listed =>
        split at found
        · next s opens =>
          cases found
          exact homed.records k record seg e next child there listed opens made
        · cases found
  · cases found
    exact homed.derived k seg child made

/-- It is read as before, unless the child is below the root. -/
theorem Sound.nextKey_kept (sound : Sound home keys start root rootKey rootSealed walk [])
    {tree : EnvPath → Option (TreeNode ν)} {k next : κ} {seg : String} {child : EnvPath}
    (made : (home (NodeKeys.vaultId k)).child seg = some child) (outside : child ∉ walk.opened.map Prod.fst ∨ child = root)
    (flag : (replanted tree root walk child).any (·.isSealed) = (tree child).any (·.isSealed))
    (found : nextKey start tree k seg child = .ok next) :
    nextKey walk.vaults (replanted tree root walk) k seg child = .ok next := by
  unfold nextKey at found ⊢
  rw [flag]
  by_cases isSealed : (tree child).any (·.isSealed) = true
  · rw [if_pos isSealed] at found ⊢
    cases there : start (NodeKeys.vaultId k) with
    | none => simp [there] at found
    | some record =>
      have exists' : (walk.vaults (NodeKeys.vaultId k)).isSome := by
        rw [sound.same, there]
        rfl
      obtain ⟨record', there'⟩ := Option.isSome_iff_exists.mp exists'
      have kept := sound.entries _ record' record seg child there' there made outside
      simpa only [there, there', kept] using found
  · rw [if_neg isSealed] at found ⊢
    exact found

/-- A path that is not below the root has the chain it had. -/
theorem Sound.descend_kept (sound : Sound home keys start root rootKey rootSealed walk []) (homed : Homed home keys start)
    {tree : EnvPath → Option (TreeNode ν)} {h p : EnvPath} {kh k : κ} {segs : List String} (at_home : home (NodeKeys.vaultId kh) = h)
    (outside : p.startsWith root = false ∨ p = root ∧ (replanted tree root walk root).any (·.isSealed) = (tree root).any (·.isSealed))
    (descends : descend start tree h kh segs = .ok (p, k)) :
    descend walk.vaults (replanted tree root walk) h kh segs = .ok (p, k) ∧ home (NodeKeys.vaultId k) = p := by
  apply descend_congr _ _ descends at_home
  intro key seg child next _ made above found
  have unfound : child.startsWith root = false → walk.found child = none := by
    intro away
    cases noted : walk.found child with
    | none => rfl
    | some node => exact absurd (sound.found child node noted) (by simp [away])
  have apart : child = root ∧ p = root ∨ child.startsWith root = false := by
    by_cases under : child.startsWith root = true
    · left
      rcases outside with away | ⟨rfl, _⟩
      · exact absurd (EnvPath.startsWith_trans above under) (by simp [away])
      · exact ⟨EnvPath.startsWith_antisymm under above, rfl⟩
    · exact .inr (by simpa using under)
  refine ⟨nextKey_home homed made found, sound.nextKey_kept made ?_ ?_ found⟩
  · rcases apart with ⟨atRoot, _⟩ | away
    · exact .inr atRoot
    · left
      intro member
      obtain ⟨⟨q, key'⟩, opened, rfl⟩ := List.mem_map.mp member
      exact absurd (sound.opened q key' opened).2.2.1 (by simp [away])
  · rcases apart with ⟨rfl, rfl⟩ | away
    · rcases outside with away | ⟨_, flag⟩
      · simp [EnvPath.startsWith_refl] at away
      · exact flag
    · unfold replanted
      simp [unfound away, away]

/-- Below a root that is held with the key it was rediscovered from, chains lead to the
vaults that were opened. -/
theorem Sound.agrees_held {before : Local κ ν} (sound : Sound home before.keys start root rootKey rootSealed walk [])
    (planted : owner.tree = replanted before.tree root walk) (held : root ∈ owner.held) (stored : owner.keys root = some rootKey)
    (heldBefore : ∀ h ∈ owner.held, h ≠ root → h ∈ before.held) (others : ∀ h, h ≠ root → owner.keys h = before.keys h)
    (settled : Settled start before root rootKey) {p : EnvPath} {k : κ} (opened : (p, k) ∈ walk.opened) :
    Agrees owner walk.vaults p := by
  obtain ⟨h, deepest, below⟩ := heldRootFor_held held (sound.opened p k opened).2.2.1
  apply sound.agrees_below planted opened deepest below
  intro kh top
  by_cases same : h = root
  · subst same
    rw [stored, (sound.root_key top).1]
  · rw [others h same]
    exact settled h (heldBefore h (heldRootFor_some deepest).1 same) same kh (sound.opened h kh top).1

/-- What a root's rediscovery does not reach keeps its chain. -/
theorem Sound.agrees_kept (sound : Sound home owner.keys start root rootKey rootSealed walk [])
    (homed : Homed home owner.keys start) {p : EnvPath} (outside : p.startsWith root = false) (agrees : Agrees owner start p) :
    Agrees { owner with tree := replanted owner.tree root walk } walk.vaults p := by
  obtain ⟨list, key, node, chains, ends, noted, records⟩ := agrees
  obtain ⟨h, kh, k, deepest, stored, descends, ends'⟩ := descend_of_chain chains
  obtain rfl : k = key := by
    rw [ends] at ends'
    exact (congrArg Prod.snd (Option.some.inj ends')).symm
  have unfound : walk.found p = none := by
    cases given : walk.found p with
    | none => rfl
    | some node => exact absurd (sound.found p node given) (by simp [outside])
  obtain ⟨kept, _⟩ := sound.descend_kept homed (homed.stored h kh stored) (.inl outside) descends
  refine agrees_of_descend deepest stored kept ⟨node.isSealed, ?_⟩
  change replanted owner.tree root walk p = _
  unfold replanted
  simp only [unfound, outside]
  rw [← records]
  simpa using noted

end Ended

/-! ## The operations -/

variable [DecidableEq ν] {home : ν → EnvPath} {vaults : Vaults κ ν} {owner : Local κ ν} {root : EnvPath}
  {rootKey : κ} {nodes : Nat}

theorem discoverFrom_ok {after : Local κ ν} {walk : Walk κ ν}
    (found : discoverFrom nodes owner vaults root rootKey = .ok (after, walk)) :
    after = { owner with tree := replanted owner.tree root walk } ∧
      walkFrom owner root nodes ⟨vaults, fun _ => none, [], []⟩
        [⟨root, rootKey, (owner.tree root).any (·.isSealed), none⟩] = .ok walk := by
  unfold discoverFrom at found
  cases walks : walkFrom owner root nodes ⟨vaults, fun _ => none, [], []⟩
      [⟨root, rootKey, (owner.tree root).any (·.isSealed), none⟩] with
  | error e =>
    simp only [walks] at found
    cases found
  | ok ended =>
    simp only [walks] at found
    cases found
    exact ⟨rfl, rfl⟩

theorem discoverFrom_sound (homed : Homed home owner.keys vaults) (homeRoot : home (NodeKeys.vaultId rootKey) = root)
    {after : Local κ ν} {walk : Walk κ ν} (found : discoverFrom nodes owner vaults root rootKey = .ok (after, walk)) :
    Sound home owner.keys vaults root rootKey ((owner.tree root).any (·.isSealed)) walk [] :=
  walkFrom_sound homed homeRoot (sound_begins _ homed) (discoverFrom_ok found).2

omit [DecidableEq ν] in
/-- A chain's end is a key of a vault of the path. -/
theorem chain_home (homed : Homed home owner.keys vaults) {list : List (EnvPath × κ)}
    (chains : chain owner vaults root = .ok list) (ends : chainEnd list = .ok rootKey) :
    home (NodeKeys.vaultId rootKey) = root := by
  obtain ⟨top, topKey, last, _, stored, descends, atEnd⟩ := descend_of_chain chains
  obtain rfl : last = rootKey := by
    unfold chainEnd at ends
    rw [atEnd] at ends
    exact Except.ok.inj ends
  exact (descend_congr vaults owner.tree descends (homed.stored top topKey stored) fun key seg child next _ made _ found =>
    ⟨nextKey_home homed made found, found⟩).2

/-- After a discovery, chains lead to the vaults that were opened. -/
theorem discover_agrees (homed : Homed home owner.keys vaults) {list : List (EnvPath × κ)}
    (chains : chain owner vaults root = .ok list) (ends : chainEnd list = .ok rootKey) {after : Local κ ν} {walk : Walk κ ν}
    (found : discoverFrom nodes owner vaults root rootKey = .ok (after, walk)) (settled : Settled vaults owner root rootKey)
    {p : EnvPath} {k : κ} (opened : (p, k) ∈ walk.opened) : Agrees after walk.vaults p := by
  have homeRoot := chain_home homed chains ends
  obtain ⟨top, topKey, k0, deepestRoot, storedTop, descends, last⟩ := descend_of_chain chains
  obtain rfl : k0 = rootKey := by
    unfold chainEnd at ends
    rw [last] at ends
    exact Except.ok.inj ends
  have homeTop := homed.stored top topKey storedTop
  have sound := discoverFrom_sound homed homeRoot found
  obtain ⟨rfl, _⟩ := discoverFrom_ok found
  have under := (sound.opened p k opened).2.2.1
  obtain ⟨heldTop, aboveTop, coversTop⟩ := heldRootFor_some deepestRoot
  obtain ⟨h, deepest⟩ := heldRootFor_exists heldTop (EnvPath.startsWith_trans under aboveTop)
  rcases heldRootFor_side deepest under with below | ⟨different, deepest'⟩
  · have deepestAfter : ({ owner with tree := replanted owner.tree root walk } : Local κ ν).heldRootFor p = some h := deepest
    apply sound.agrees_below rfl opened deepestAfter below
    intro kh opened'
    by_cases same : h = root
    · -- The root is held, so its own chain is the key that is held for it.
      subst same
      obtain ⟨heldRoot, _, _⟩ := heldRootFor_some deepest
      have itself := heldRootFor_eq heldRoot h.startsWith_refl fun other _ above => (EnvPath.startsWith_iff.mp above).length_le
      obtain rfl := Option.some.inj (deepestRoot.symm.trans itself)
      rw [EnvPath.depth, List.drop_length] at descends
      cases descends
      rw [(sound.root_key opened').1]
      exact storedTop
    · exact settled h (heldRootFor_some deepest).1 same kh (sound.opened h kh opened').1
  · obtain rfl := Option.some.inj (deepestRoot.symm.trans deepest')
    obtain ⟨rootsKey, openedRoot, descendsBelow⟩ := sound.descends owner.tree opened under root.startsWith_refl
    obtain ⟨rfl, noted⟩ := sound.root_key openedRoot
    have flag : (replanted owner.tree root walk root).any (·.isSealed) = (owner.tree root).any (·.isSealed) := by
      rw [replanted_found noted]
      rfl
    obtain ⟨kept, _⟩ := sound.descend_kept homed homeTop (.inr ⟨rfl, flag⟩) descends
    obtain ⟨isSealed, recorded⟩ := sound.recorded_vault opened
    refine agrees_of_descend deepest storedTop ?_ ⟨isSealed, replanted_found recorded⟩
    have split : p.segments.drop top.depth = root.segments.drop top.depth ++ p.segments.drop root.depth := by
      conv_lhs => rw [← List.prefix_iff_eq_append.mp (EnvPath.startsWith_iff.mp under)]
      exact List.drop_append_of_le_length (EnvPath.startsWith_iff.mp aboveTop).length_le
    rw [split, descend_append kept]
    exact descendsBelow

/-- What a discovery did: it read the root's key off its chain, and went down from there. -/
theorem discover_ok {after : Local κ ν} {walk : Walk κ ν} (found : discover nodes owner vaults root = .ok (after, walk)) :
    ∃ list key, chain owner vaults root = .ok list ∧ chainEnd list = .ok key ∧
      discoverFrom nodes owner vaults root key = .ok (after, walk) := by
  unfold discover at found
  split at found
  · cases chains : chain owner vaults root with
    | error e =>
      rw [chains] at found
      cases found
    | ok list =>
      cases ends : chainEnd list with
      | error e =>
        simp only [chains, bind, Except.bind, ends] at found
        cases found
      | ok key =>
        simp only [chains, bind, Except.bind, ends] at found
        exact ⟨list, key, rfl, ends, found⟩
  · cases found

/-- What an import did: it went down from the kit's key, which is held from then on. -/
theorem importKit_ok {kit : Kit κ} {after : Local κ ν} {walk : Walk κ ν}
    (imported : importKit nodes owner vaults kit = .ok (after, walk)) :
    ∃ found, discoverFrom nodes owner vaults kit.path kit.key = .ok (found, walk) ∧ after.tree = found.tree ∧
      after.keys = Function.update owner.keys kit.path (some kit.key) ∧ kit.path ∈ after.held ∧
        ∀ h ∈ after.held, h ≠ kit.path → h ∈ owner.held := by
  unfold importKit at imported
  split at imported
  · cases imported
  · split at imported
    · cases imported
    · cases discovered : discoverFrom nodes owner vaults kit.path kit.key with
      | error e =>
        rw [discovered] at imported
        cases imported
      | ok result =>
        obtain ⟨found, ended⟩ := result
        obtain ⟨rfl, _⟩ := discoverFrom_ok discovered
        rw [discovered] at imported
        cases imported
        refine ⟨_, rfl, rfl, rfl, ?_, ?_⟩
        · change kit.path ∈ (if kit.path ∈ owner.held then owner.held else owner.held ++ [kit.path])
          split <;> simp_all
        · intro h held different
          change h ∈ (if kit.path ∈ owner.held then owner.held else owner.held ++ [kit.path]) at held
          split at held
          · exact held
          · simpa [different] using held

/-- The held keys below each root are settled when it is its turn. -/
def SettledFrom (nodes : Nat) : Local κ ν → Vaults κ ν → List EnvPath → Prop
  | _, _, [] => True
  | owner, vaults, root :: rest => ∀ key, owner.keys root = some key → Settled vaults owner root key ∧
      ∀ after walk, discoverFrom nodes owner vaults root key = .ok (after, walk) → SettledFrom nodes after walk.vaults rest

theorem refreshFrom_spec (homed : Homed home owner.keys vaults) {roots : List EnvPath} {opened opened' : List (EnvPath × κ)}
    (held : ∀ r ∈ roots, r ∈ owner.held) {after : Local κ ν} {vaults' : Vaults κ ν}
    (refreshes : refreshFrom nodes owner vaults opened roots = .ok (after, vaults', opened')) :
    Homed home after.keys vaults' ∧ (SettledFrom nodes owner vaults roots → (∀ o ∈ opened, Agrees owner vaults o.1) →
      ∀ o ∈ opened', Agrees after vaults' o.1) := by
  induction roots generalizing owner vaults opened with
  | nil =>
    cases refreshes
    exact ⟨homed, fun _ agrees => agrees⟩
  | cons root rest inductionHypothesis =>
    unfold refreshFrom at refreshes
    split at refreshes
    · cases refreshes
    · next key stored =>
      cases discovered : discoverFrom nodes owner vaults root key with
      | error e =>
        rw [discovered] at refreshes
        cases refreshes
      | ok result =>
        obtain ⟨found, walk⟩ := result
        rw [discovered] at refreshes
        have sound := discoverFrom_sound homed (homed.stored root key stored) discovered
        obtain ⟨same, _⟩ := discoverFrom_ok discovered
        have homed' : Homed home found.keys walk.vaults := by
          rw [same]
          exact ⟨homed.derived, homed.stored, sound.atHome⟩
        have held' : ∀ r ∈ rest, r ∈ found.held := by
          rw [same]
          exact fun r member => held r (List.mem_cons_of_mem _ member)
        obtain ⟨kept, agrees⟩ := inductionHypothesis homed' held' refreshes
        refine ⟨kept, fun settled before => agrees ((settled key stored).2 found walk discovered) ?_⟩
        rintro ⟨p, k⟩ member
        rcases List.mem_append.mp member with earlier | now
        · obtain ⟨listed, outside⟩ := List.mem_filter.mp earlier
          rw [same]
          exact sound.agrees_kept homed (by simpa using outside) (before _ listed)
        · rw [same]
          have planted : ({ owner with tree := replanted owner.tree root walk } : Local κ ν).tree =
            replanted owner.tree root walk := rfl
          exact sound.agrees_held planted (held root List.mem_cons_self) stored (fun _ listed _ => listed) (fun _ _ => rfl)
            (settled key stored).1 now

/-! ## Runs -/

/-- What rediscovers: a discovery below a known node, a refresh, an import of a kit. -/
inductive Rediscovery (κ : Type) where
  | discover (root : EnvPath)
  | refresh
  | importKit (kit : Kit κ)

namespace Rediscovery

/-- The owner and the vaults afterwards, and the nodes whose vaults were opened. -/
def run (nodes : Nat) (owner : Local κ ν) (vaults : Vaults κ ν) :
    Rediscovery κ → Except OwnerError (Local κ ν × Vaults κ ν × List (EnvPath × κ))
  | .discover root => do
    let (after, walk) ← Owner.discover nodes owner vaults root
    pure (after, walk.vaults, walk.opened)
  | .refresh => Owner.refresh nodes owner vaults
  | .importKit kit => do
    let (after, walk) ← Owner.importKit nodes owner vaults kit
    pure (after, walk.vaults, walk.opened)

/-- A kit is for the node its key is of. -/
def AtHome (home : ν → EnvPath) : Rediscovery κ → Prop
  | .importKit kit => home (NodeKeys.vaultId kit.key) = kit.path
  | _ => True

/-- Each key held below a node that is rediscovered is the one the records lead to. -/
def Settled (nodes : Nat) (owner : Local κ ν) (vaults : Vaults κ ν) : Rediscovery κ → Prop
  | .discover root => ∀ list key, chain owner vaults root = .ok list → chainEnd list = .ok key →
      Owner.Settled vaults owner root key
  | .refresh => SettledFrom nodes owner vaults owner.held
  | .importKit kit => Owner.Settled vaults owner kit.path kit.key

/-- A rediscovery keeps each vault that of one node, and, where the held keys are
settled, chains lead to the vaults that it opened. -/
theorem run_spec {op : Rediscovery κ} (homed : Homed home owner.keys vaults) (opHome : op.AtHome home) {after : Local κ ν}
    {vaults' : Vaults κ ν} {opened : List (EnvPath × κ)} (runs : op.run nodes owner vaults = .ok (after, vaults', opened)) :
    Homed home after.keys vaults' ∧ (op.Settled nodes owner vaults → ∀ o ∈ opened, Agrees after vaults' o.1) := by
  cases op with
  | discover root =>
    simp only [run] at runs
    cases found : Owner.discover nodes owner vaults root with
    | error e =>
      rw [found] at runs
      cases runs
    | ok result =>
      obtain ⟨found', walk⟩ := result
      rw [found] at runs
      cases runs
      obtain ⟨list, key, chains, ends, discovered⟩ := discover_ok found
      have sound := discoverFrom_sound homed (chain_home homed chains ends) discovered
      refine ⟨?_, fun settled o member => ?_⟩
      · rw [(discoverFrom_ok discovered).1]
        exact ⟨homed.derived, homed.stored, sound.atHome⟩
      · exact discover_agrees homed chains ends discovered (settled list key chains ends) member
  | refresh =>
    simp only [run, Owner.refresh] at runs
    split at runs
    · cases runs
    · obtain ⟨kept, agrees⟩ := refreshFrom_spec homed (fun r member => member) runs
      refine ⟨kept, fun settled => agrees settled ?_⟩
      intro o member
      cases member
  | importKit kit =>
    simp only [run] at runs
    cases imported : Owner.importKit nodes owner vaults kit with
    | error e =>
      rw [imported] at runs
      cases runs
    | ok result =>
      obtain ⟨after', walk⟩ := result
      rw [imported] at runs
      cases runs
      obtain ⟨found, discovered, tree, keys, holds, heldBefore⟩ := importKit_ok imported
      have sound := discoverFrom_sound homed opHome discovered
      refine ⟨⟨homed.derived, ?_, sound.atHome⟩, fun settled o member => ?_⟩
      · intro p s stored
        rw [keys] at stored
        by_cases here : p = kit.path
        · subst here
          rw [Function.update_self] at stored
          obtain rfl := Option.some.inj stored
          exact opHome
        · rw [Function.update_of_ne here] at stored
          exact homed.stored p s stored
      · have planted : after'.tree = replanted owner.tree kit.path walk := by
          rw [tree, (discoverFrom_ok discovered).1]
        exact sound.agrees_held planted holds (by rw [keys, Function.update_self]) heldBefore
          (fun h other => by rw [keys, Function.update_of_ne other]) settled member

end Rediscovery

/-- What owners can come to: one starts with nothing; its other operations, and those of
other owners, change what it holds and knows and what the records list, as long as each
key is stored or listed for the node that it is of; and it rediscovers. -/
inductive Reached (home : ν → EnvPath) (nodes : Nat) : Local κ ν → Vaults κ ν → Prop where
  | fresh {server : String} {vaults : Vaults κ ν} :
    AtHome home vaults → Reached home nodes ⟨server, [], fun _ => none, fun _ => none⟩ vaults
  | served {owner : Local κ ν} {vaults vaults' : Vaults κ ν} :
    Reached home nodes owner vaults → AtHome home vaults' → Reached home nodes owner vaults'
  | worked {owner owner' : Local κ ν} {vaults : Vaults κ ν} :
    Reached home nodes owner vaults → (∀ p s, owner'.keys p = some s → home (NodeKeys.vaultId s) = p) →
      Reached home nodes owner' vaults
  | rediscovered {owner after : Local κ ν} {vaults vaults' : Vaults κ ν} {op : Rediscovery κ} {opened : List (EnvPath × κ)} :
    Reached home nodes owner vaults → op.AtHome home → op.run nodes owner vaults = .ok (after, vaults', opened) →
      Reached home nodes after vaults'

/-- In every run each vault is that of one node. -/
theorem Reached.homed (derived : ∀ (k : κ) seg p, (home (NodeKeys.vaultId k)).child seg = some p →
      home (NodeKeys.vaultId (NodeKeys.child k seg)) = p)
    (reached : Reached home nodes owner vaults) : Homed home owner.keys vaults := by
  induction reached with
  | fresh records => exact ⟨derived, fun p s stored => (by cases stored), records⟩
  | served _ records before => exact ⟨derived, before.stored, records⟩
  | worked _ stored before => exact ⟨derived, stored, before.records⟩
  | rediscovered _ opHome runs before => exact (Rediscovery.run_spec before opHome runs).1

/-- In every run, right after a rediscovery below which each held key is the one the
records lead to, the chain of each path whose vault was opened ends in a key of the vault
that the tree records for it. -/
theorem chain_after_rediscovery (derived : ∀ (k : κ) seg p, (home (NodeKeys.vaultId k)).child seg = some p →
      home (NodeKeys.vaultId (NodeKeys.child k seg)) = p)
    (reached : Reached home nodes owner vaults) {op : Rediscovery κ} (opHome : op.AtHome home) {after : Local κ ν}
    {vaults' : Vaults κ ν} {opened : List (EnvPath × κ)} (runs : op.run nodes owner vaults = .ok (after, vaults', opened))
    (settled : op.Settled nodes owner vaults) : ∀ o ∈ opened, Agrees after vaults' o.1 :=
  (Rediscovery.run_spec (reached.homed derived) opHome runs).2 settled

/-! ## A key that is held from before a rekey -/

section Stale

/-- A key of a node, of its first owner or of the one a rekey made. -/
structure PlainKey where
  node : EnvPath
  generation : Nat
deriving DecidableEq

instance : NodeKeys PlainKey PlainKey where
  child key seg := ⟨(key.node.child seg).getD key.node, key.generation⟩
  vaultId key := key

theorem plain_derived (k : PlainKey) (seg : String) (p : EnvPath) (made : (NodeKeys.vaultId k).node.child seg = some p) :
    (NodeKeys.vaultId (NodeKeys.child k seg)).node = p := by
  change (k.node.child seg).getD k.node = p
  rw [show k.node.child seg = some p from made]
  rfl

def acme : EnvPath := ⟨["acme"], by decide, by decide⟩

def acmeProd : EnvPath := ⟨["acme", "prod"], by decide, by decide⟩

/-- A server with a project and one environment below it. -/
def oneChild (mode : ChildMode PlainKey) (generation : Nat) : Vaults PlainKey PlainKey := fun key =>
  if key = ⟨acme, 0⟩ then some ⟨[⟨"prod", mode⟩], by simp⟩
  else if key = ⟨acmeProd, generation⟩ then some ⟨[], by simp⟩
  else none

theorem oneChild_atHome {mode : ChildMode PlainKey} {generation : Nat}
    (opens : ∀ s, mode.key ⟨acme, 0⟩ "prod" = some s → s.node = acmeProd) :
    AtHome PlainKey.node (oneChild mode generation) := by
  intro k record seg e s p there listed opens' made
  change oneChild mode generation k = some record at there
  unfold oneChild at there
  split at there
  · next here =>
    subst here
    cases there
    obtain rfl := ChildrenRecord.get_seg listed
    obtain rfl := List.mem_singleton.mp (List.mem_of_find?_eq_some listed)
    obtain rfl : acmeProd = p := by
      apply EnvPath.ext
      rw [EnvPath.child_segments made]
      rfl
    exact opens s opens'
  · split at there
    · cases there
      cases listed
    · cases there

/-- An owner that holds nothing. -/
def newcomer : Local PlainKey PlainKey := ⟨"vault.example", [], fun _ => none, fun _ => none⟩

theorem exists_of_any {ε α : Type} {outcome : Except ε α} {test : α → Bool} (passes : outcome.toOption.any test = true) :
    ∃ result, outcome = .ok result ∧ test result = true := by
  cases outcome with
  | error e => cases passes
  | ok result => exact ⟨result, rfl, passes⟩

theorem oneChild_before : AtHome PlainKey.node (oneChild .derived 0) := oneChild_atHome fun s given => by
  cases given
  rfl

theorem oneChild_rekeyed : AtHome PlainKey.node (oneChild (.sealed (some ⟨acmeProd, 1⟩)) 1) := oneChild_atHome fun s given => by
  cases given
  rfl

theorem kit_atHome {key : PlainKey} {server : String} :
    (Rediscovery.importKit ⟨key.node, server, key⟩).AtHome PlainKey.node := rfl

/-- An import of a project's kit opens the project and its environment, and their chains
lead to them. -/
theorem chain_after_import : ∃ after vaults' opened,
    (Rediscovery.importKit ⟨acme, "vault.example", ⟨acme, 0⟩⟩).run 3 newcomer (oneChild .derived 0) =
      .ok (after, vaults', opened) ∧
    (acmeProd, (⟨acmeProd, 0⟩ : PlainKey)) ∈ opened ∧ Agrees after vaults' acmeProd := by
  have runs : ((Rediscovery.importKit ⟨acme, "vault.example", ⟨acme, 0⟩⟩).run 3 newcomer
      (oneChild .derived 0)).toOption.any (fun r => decide ((acmeProd, (⟨acmeProd, 0⟩ : PlainKey)) ∈ r.2.2)) = true := by
    decide +kernel
  obtain ⟨⟨after, vaults', opened⟩, ends, listed⟩ := exists_of_any runs
  have member := of_decide_eq_true listed
  refine ⟨after, vaults', opened, ends, member, ?_⟩
  exact chain_after_rediscovery plain_derived (.fresh oneChild_before) kit_atHome ends (fun h held => by cases held) _ member

/-- An owner imports a project and its environment, another rekeys the environment, and
the first discovers the project again: the environment's new vault is opened, but its
chain ends in the old key. -/
theorem chain_after_rekey : ∃ (owner after : Local PlainKey PlainKey) (vaults vaults' : Vaults PlainKey PlainKey)
    (opened : List (EnvPath × PlainKey)), Reached PlainKey.node 3 owner vaults ∧
      (Rediscovery.discover acme).run 3 owner vaults = .ok (after, vaults', opened) ∧
        (acmeProd, (⟨acmeProd, 1⟩ : PlainKey)) ∈ opened ∧ ¬Agrees after vaults' acmeProd := by
  have runs : ((Rediscovery.importKit ⟨acme, "vault.example", ⟨acme, 0⟩⟩).run 3 newcomer
      (oneChild .derived 0)).toOption.any (fun first =>
        ((Rediscovery.importKit ⟨acmeProd, "vault.example", ⟨acmeProd, 0⟩⟩).run 3 first.1 first.2.1).toOption.any
          (fun second => ((Rediscovery.discover acme).run 3 second.1
            (oneChild (.sealed (some ⟨acmeProd, 1⟩)) 1)).toOption.any fun third =>
              decide ((acmeProd, (⟨acmeProd, 1⟩ : PlainKey)) ∈ third.2.2 ∧ ¬Agrees third.1 third.2.1 acmeProd))) = true := by
    decide +kernel
  obtain ⟨⟨first, vaults, _⟩, imports, runs⟩ := exists_of_any runs
  obtain ⟨⟨second, vaults', _⟩, delegates, runs⟩ := exists_of_any runs
  obtain ⟨⟨third, vaults'', opened⟩, discovers, runs⟩ := exists_of_any runs
  obtain ⟨member, apart⟩ := of_decide_eq_true runs
  have start : Reached PlainKey.node 3 newcomer (oneChild .derived 0) := .fresh oneChild_before
  have held := (start.rediscovered kit_atHome imports).rediscovered kit_atHome delegates
  exact ⟨second, third, _, vaults'', opened, held.served oneChild_rekeyed, discovers, member, apart⟩

end Stale

end GalataVault.Owner
