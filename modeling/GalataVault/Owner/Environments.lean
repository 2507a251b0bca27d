import Mathlib.Data.List.Dedup
import GalataVault.Owner.Repairs

/-!
# Adding and removing environments

An owner adds an environment below one it knows, and removes one with everything below it.
To add one creates its vault, lists it in its parent's children record, and notes it in the
known tree. To remove one deletes the vaults of its subtree, deepest first, forgets the
nodes, and takes it off its parent's record.

Between two calls of a project's single owner the known tree, the vaults and the children
records agree. So the calls are those of a tree of paths: what is allowed, and what comes of
it, can be told from the paths alone.
-/

namespace GalataVault.Owner

/-! ## The code -/

namespace ChildrenRecord

variable {κ : Type}

/-- Take a child off the record. -/
def remove (record : ChildrenRecord κ) (seg : String) : ChildrenRecord κ where
  children := record.children.filter (·.seg ≠ seg)
  distinct := record.distinct.sublist (List.filter_sublist.map _)

theorem mem_remove {record : ChildrenRecord κ} {seg : String} {e : ChildEntry κ} :
    e ∈ (record.remove seg).children ↔ e ∈ record.children ∧ e.seg ≠ seg := by
  unfold remove
  simp

theorem get_remove {record : ChildrenRecord κ} {seg other : String} (different : other ≠ seg) :
    (record.remove seg).get other = record.get other := by
  cases found : record.get other with
  | none =>
    rw [get_eq_none_iff] at found ⊢
    rintro member
    obtain ⟨e, listed, rfl⟩ := List.mem_map.mp member
    exact found (List.mem_map_of_mem (mem_remove.mp listed).1)
  | some e =>
    have same := get_seg found
    have kept : e ∈ (record.remove seg).children := mem_remove.mpr ⟨mem_of_get found, same ▸ different⟩
    rw [← same]
    exact get_of_mem kept

end ChildrenRecord

/-- Why creating a project, or adding or removing an environment, failed. -/
inductive ChangeError where
  | projectExists
  | vaultExists
  | isProject
  | envExists
  | hasChildren (below : List EnvPath)
  | owner (failure : OwnerError)
deriving DecidableEq

/-- A project as its owner has it: what is kept of it, and the paths of its tree. -/
structure Project (κ ν : Type) where
  paths : List EnvPath
  owner : Local κ ν

/-- What a removal reports. -/
structure Removal where
  deleted : List EnvPath
  /-- The parent whose key is not held, so that its record still lists the removed node. -/
  parentNotUpdated : Option EnvPath
deriving DecidableEq

variable {κ ν : Type} [NodeKeys κ ν] [DecidableEq ν]

/-- Create a vault, unless it is there. -/
def Vaults.create (vaults : Vaults κ ν) (vault : ν) : Vaults κ ν :=
  if (vaults vault).isSome then vaults else Function.update vaults vault (some .empty)

/-- Create a project, once its kit is stored: its vault, and what its owner has of it. `stored` is
what the key store holds. -/
def confirmKitStored (known : Option (Project κ ν)) (stored : EnvPath → Option κ) (vaults : Vaults κ ν) (path : EnvPath)
    (server : String) (key : κ) : Except ChangeError Unit × Option (Project κ ν) × Vaults κ ν :=
  if known.isSome then (.error .projectExists, known, vaults)
  else if (vaults (NodeKeys.vaultId key)).isSome then (.error .vaultExists, known, vaults)
  else
    (.ok (),
      some
        { paths := [path]
          owner :=
            { server
              held := [path]
              tree := Function.update (fun _ => none) path (some ⟨NodeKeys.vaultId key, false⟩)
              keys := Function.update stored path (some key) } },
      Vaults.create vaults (NodeKeys.vaultId key))

/-- The keys of the parent and of the new environment, once everything that is checked before
the vault is created has been. -/
def envAddKeys (project : Project κ ν) (vaults : Vaults κ ν) (path : EnvPath) : Except ChangeError (κ × κ) :=
  match path.parent with
  | none => .error .isProject
  | some parent =>
    if !project.owner.knows parent then .error (.owner .unknownPath)
    else if project.owner.knows path then .error .envExists
    else
      match (chain project.owner vaults parent).bind chainEnd with
      | .error failure => .error (.owner failure)
      | .ok parentKey =>
        match vaults (NodeKeys.vaultId parentKey) with
        | none => .error (.owner .vaultNotFound)
        | some record =>
          if (record.get path.last).isSome then .error .envExists
          else .ok (parentKey, NodeKeys.child parentKey path.last)

/-- The vaults once an environment is listed in its parent's children record. -/
def listed (vaults : Vaults κ ν) (parentKey : κ) (seg : String) : Option (Vaults κ ν) :=
  (vaults (NodeKeys.vaultId parentKey)).map fun record =>
    Function.update vaults (NodeKeys.vaultId parentKey) (some (record.insertMissing ⟨seg, .derived⟩))

/-- Note a new node of the tree, its key derived. -/
def Project.note (project : Project κ ν) (path : EnvPath) (vault : ν) : Project κ ν where
  paths := project.paths ++ [path]
  owner := { project.owner with tree := Function.update project.owner.tree path (some ⟨vault, false⟩) }

/-- Create an environment below a known parent whose key is reachable. A vault that an
interrupted call left is registered. -/
def envAdd (project : Project κ ν) (vaults : Vaults κ ν) (path : EnvPath) :
    Except ChangeError Unit × Project κ ν × Vaults κ ν :=
  match envAddKeys project vaults path with
  | .error failure => (.error failure, project, vaults)
  | .ok (parentKey, key) =>
    let created := Vaults.create vaults (NodeKeys.vaultId key)
    match listed created parentKey path.last with
    | none => (.error (.owner .vaultNotFound), project, created)
    | some vaults => (.ok (), project.note path (NodeKeys.vaultId key), vaults)

/-- Delete a node's vault, if it opens, and forget the node. -/
def removeNode (owner : Local κ ν) (vaults : Vaults κ ν) (node : EnvPath) (key : κ) : Local κ ν × Vaults κ ν :=
  ({ owner with
      tree := Function.update owner.tree node none
      held := owner.held.erase node
      keys := if node ∈ owner.held then Function.update owner.keys node none else owner.keys },
    Function.update vaults (NodeKeys.vaultId key) none)

/-- Delete nodes one after the other, each by the key its chain leads to. -/
def removeNodes (owner : Local κ ν) (vaults : Vaults κ ν) :
    List EnvPath → Except OwnerError Unit × Local κ ν × Vaults κ ν
  | [] => (.ok (), owner, vaults)
  | node :: rest =>
    match (chain owner vaults node).bind chainEnd with
    | .error failure => (.error failure, owner, vaults)
    | .ok key =>
      let (owner, vaults) := removeNode owner vaults node key
      removeNodes owner vaults rest

/-- The paths of the tree after a rediscovery. -/
def Project.rediscovered (project : Project κ ν) (owner : Local κ ν) (walk : Walk κ ν) : Project κ ν where
  paths := (project.paths ++ (walk.opened.map Prod.fst ++ walk.unreachable)).dedup.filter owner.knows
  owner := owner

/-- What becomes of a project, and of its parent's children record, once the nodes of a subtree
are deleted. -/
def delist (project : Project κ ν) (vaults : Vaults κ ν) (keys : List (EnvPath × κ)) (path : EnvPath) :
    Except ChangeError (Option EnvPath) × Option (Project κ ν) × Vaults κ ν :=
  match path.parent with
  | none => (.ok none, none, vaults)
  | some parent =>
    match keys.dropLast.getLast? with
    | none => (.ok (some parent), some project, vaults)
    | some (_, parentKey) =>
      match vaults (NodeKeys.vaultId parentKey) with
      | none => (.error (.owner .vaultNotFound), some project, vaults)
      | some record =>
        (.ok none, some project, Function.update vaults (NodeKeys.vaultId parentKey) (some (record.remove path.last)))

/-- Delete a node's vault and, if `recursive`, every environment below it, deepest first. The
children that other clients may have added are seen before. -/
def envRemove (nodes : Nat) (project : Project κ ν) (vaults : Vaults κ ν) (path : EnvPath) (recursive : Bool) :
    Except ChangeError Removal × Option (Project κ ν) × Vaults κ ν :=
  if !project.owner.knows path then (.error (.owner .unknownPath), some project, vaults)
  else
    match chain project.owner vaults path with
    | .error failure => (.error (.owner failure), some project, vaults)
    | .ok keys =>
      match (chainEnd keys).bind (discoverFrom nodes project.owner vaults path) with
      | .error failure => (.error (.owner failure), some project, vaults)
      | .ok (owner, walk) =>
        let project := project.rediscovered owner walk
        let below := descendants project.paths path
        if below ≠ [] ∧ recursive = false then (.error (.hasChildren below), some project, walk.vaults)
        else
          let gone := below ++ [path]
          match removeNodes project.owner walk.vaults gone with
          | (.error failure, owner, vaults) =>
            (.error (.owner failure), some { project with paths := project.paths.filter owner.knows, owner }, vaults)
          | (.ok (), owner, vaults) =>
            let (outcome, left) := delist ⟨project.paths.filter owner.knows, owner⟩ vaults keys path
            (outcome.map fun parentNotUpdated => ⟨gone, parentNotUpdated⟩, left)

/-- Rediscover below a known node. -/
def envDiscover (nodes : Nat) (project : Project κ ν) (vaults : Vaults κ ν) (path : EnvPath) :
    Except ChangeError (List EnvPath) × Project κ ν × Vaults κ ν :=
  match discover nodes project.owner vaults path with
  | .error failure => (.error (.owner failure), project, vaults)
  | .ok (owner, walk) => (.ok walk.unreachable, project.rediscovered owner walk, walk.vaults)

/-! ## What holds between calls -/

/-- A project whose single owner is in step with the server: what it knows is as the records
have it, every known node's vault is there, and no other vault is of a node of the project.
The keys that are held are those of known nodes, and no others are stored. -/
structure InStep (home : ν → EnvPath) (project : Project κ ν) (vaults : Vaults κ ν) (top : EnvPath) (keyOf : EnvPath → κ) :
    Prop where
  known : Known project.paths project.owner vaults top keyOf
  homed : ∀ p ∈ project.paths, home (NodeKeys.vaultId (keyOf p)) = p
  there : ∀ p ∈ project.paths, vaults (NodeKeys.vaultId (keyOf p)) ≠ none
  only : ∀ v, vaults v ≠ none → (home v).startsWith top = true → ∃ p ∈ project.paths, v = NodeKeys.vaultId (keyOf p)
  opens : ∀ q ∈ project.paths, ∀ record ∈ vaults (NodeKeys.vaultId (keyOf q)), ∀ e ∈ record.children,
    e.mode.key (keyOf q) e.seg ≠ none
  holds : ∀ h ∈ project.owner.held, h ∈ project.paths
  once : project.owner.held.Nodup
  stores : ∀ p, project.owner.keys p ≠ none → p ∈ project.owner.held

section

variable {home : ν → EnvPath} {project : Project κ ν} {owner : Local κ ν} {vaults : Vaults κ ν} {top : EnvPath}
  {keyOf : EnvPath → κ}

omit [DecidableEq ν] in
/-- Only which paths there are matters, not how they are listed. -/
theorem InStep.relist (inStep : InStep home project vaults top keyOf) {paths : List EnvPath}
    (same : ∀ p, p ∈ paths ↔ p ∈ project.paths) : InStep home ⟨paths, project.owner⟩ vaults top keyOf where
  known :=
    { listed := fun p => (same p).trans (inStep.known.listed p)
      root := (same top).mpr inStep.known.root
      under := fun p member => inStep.known.under p ((same p).mp member)
      closed := fun p member strict q above => (same q).mpr (inStep.known.closed p ((same p).mp member) strict q above)
      recorded := fun p member => inStep.known.recorded p ((same p).mp member)
      derived := fun p member => inStep.known.derived p ((same p).mp member)
      apart := fun p member q other => inStep.known.apart p ((same p).mp member) q ((same q).mp other)
      topmost := inStep.known.topmost
      held := inStep.known.held
      stored := fun p member => inStep.known.stored p ((same p).mp member)
      lists := fun p member => inStep.known.lists p ((same p).mp member)
      leads := by
        intro q member record there e listed p made k key
        obtain ⟨known, rfl⟩ := inStep.known.leads q ((same q).mp member) record there e listed p made k key
        exact ⟨(same p).mpr known, rfl⟩ }
  homed p member := inStep.homed p ((same p).mp member)
  there p member := inStep.there p ((same p).mp member)
  only v there under := by
    obtain ⟨p, member, vault⟩ := inStep.only v there under
    exact ⟨p, (same p).mpr member, vault⟩
  opens q member := inStep.opens q ((same q).mp member)
  holds h held := (same h).mpr (inStep.holds h held)
  once := inStep.once
  stores := inStep.stores

omit [DecidableEq ν] in
theorem InStep.standing (inStep : InStep home project vaults top keyOf) :
    Standing project.paths project.owner top keyOf vaults [] [] := by
  refine inStep.known.standing (fun _ => .inl rfl) fun p => ?_
  constructor
  · intro member
    cases member
  · rintro ⟨node, noted, missing⟩
    obtain ⟨member, rfl⟩ := inStep.known.of_node noted
    exact absurd missing (inStep.there p member)

omit [DecidableEq ν] in
theorem InStep.knows (inStep : InStep home project vaults top keyOf) {p : EnvPath} :
    project.owner.knows p = true ↔ p ∈ project.paths := (inStep.known.listed p).symm

/-! ## Chains -/

/-- The way down to a node: the keys held at or above it are the nodes' own, and from each node
on the way the next key is found. -/
structure Reaches (owner : Local κ ν) (vaults : Vaults κ ν) (top : EnvPath) (keyOf : EnvPath → κ) (p : EnvPath) : Prop where
  under : p.startsWith top = true
  topmost : top ∈ owner.held
  held : ∀ h ∈ owner.held, p.startsWith h = true → h.startsWith top = true ∧ owner.keys h = some (keyOf h)
  next : ∀ q c, c.parent = some q → q.startsWith top = true → p.startsWith c = true →
    nextKey vaults owner.tree (keyOf q) c.last c = .ok (keyOf c)

omit [DecidableEq ν] in
theorem Reaches.descends {p here : EnvPath} (reaches : Reaches owner vaults top keyOf p) (under : here.startsWith top = true)
    {segs : List String} (whole : p.segments = here.segments ++ segs) :
    descend vaults owner.tree here (keyOf here) segs = .ok (p, keyOf p) := by
  induction segs generalizing here with
  | nil =>
    rw [List.append_nil] at whole
    rw [EnvPath.ext whole]
    rfl
  | cons seg rest inductionHypothesis =>
    obtain ⟨child, made, toward⟩ := child_toward whole
    have beneath : p.startsWith child = true := EnvPath.startsWith_iff.mpr ⟨rest, toward.symm⟩
    have found := reaches.next here child (EnvPath.parent_child made) under beneath
    rw [EnvPath.child_last made] at found
    rw [descend, made]
    simp only [found]
    exact inductionHypothesis (EnvPath.startsWith_trans (EnvPath.startsWith_child made) under) toward

omit [DecidableEq ν] in
theorem Reaches.chain {p : EnvPath} (reaches : Reaches owner vaults top keyOf p) :
    ∃ list, Owner.chain owner vaults p = .ok list ∧ chainEnd list = .ok (keyOf p) := by
  obtain ⟨h, deepest⟩ := heldRootFor_exists reaches.topmost reaches.under
  obtain ⟨held, above, _⟩ := heldRootFor_some deepest
  obtain ⟨under, key⟩ := reaches.held h held above
  have whole : p.segments = h.segments ++ p.segments.drop h.depth :=
    (List.prefix_iff_eq_append.mp (EnvPath.startsWith_iff.mp above)).symm
  obtain ⟨list, chains, ends⟩ := chainFrom_of_descend (reaches.descends under whole)
  refine ⟨list, ?_, ?_⟩
  · simp only [Owner.chain, deepest, key, chains]
  · simp only [chainEnd, ends]

omit [DecidableEq ν] in
theorem Reaches.chain_bind {p : EnvPath} (reaches : Reaches owner vaults top keyOf p) :
    (Owner.chain owner vaults p).bind chainEnd = .ok (keyOf p) := by
  obtain ⟨list, chains, ends⟩ := reaches.chain
  rw [chains]
  exact ends

omit [DecidableEq ν] in
/-- In step with the server, there is a way down to every known node. -/
theorem InStep.reaches (inStep : InStep home project vaults top keyOf) {p : EnvPath} (member : p ∈ project.paths) :
    Reaches project.owner vaults top keyOf p where
  under := inStep.known.under p member
  topmost := inStep.known.topmost
  held h held _ := inStep.known.held h held
  next q c above under beneath := by
    have made := EnvPath.child_parent above
    have childUnder := EnvPath.startsWith_trans (EnvPath.startsWith_child made) under
    have childKnown := inStep.known.above member childUnder beneath
    have strict := EnvPath.child_ne_root made under
    have parentKnown := inStep.known.closed c childKnown strict q above
    exact inStep.standing.nextKey inStep.known childKnown strict List.not_mem_nil above (inStep.there q parentKnown)

/-! ## Rediscoveries -/

omit [DecidableEq ν] in
/-- From a known node the records lead to the known nodes below it, and to no others. -/
theorem InStep.spans_iff (inStep : InStep home project vaults top keyOf) {p x : EnvPath} (member : p ∈ project.paths)
    {k : κ} {s : Bool} :
    Spans vaults p (keyOf p) ((project.owner.tree p).any (·.isSealed)) x k s ↔
      x ∈ project.paths ∧ x.startsWith p = true ∧ k = keyOf x ∧ s = (project.owner.tree x).any (·.isSealed) := by
  have known := inStep.known
  constructor
  · intro spans
    induction spans with
    | root => exact ⟨member, p.startsWith_refl, rfl, rfl⟩
    | @entry q c parentKey k parentSealed record seg e _ opens listed made found inductionHypothesis =>
      obtain ⟨qKnown, under, rfl, _⟩ := inductionHypothesis
      obtain rfl := ChildrenRecord.get_seg listed
      obtain ⟨cKnown, rfl⟩ := known.leads q qKnown record opens e (ChildrenRecord.mem_of_get listed) c made k found
      have strict := EnvPath.child_ne_root made (known.under q qKnown)
      refine ⟨cKnown, EnvPath.startsWith_trans (EnvPath.startsWith_child made) under, rfl, ?_⟩
      obtain ⟨again, relisted, flag, _⟩ := known.lists c cKnown strict q (EnvPath.parent_child made) record opens
      rw [EnvPath.child_last made] at relisted
      obtain rfl := Option.some.inj (listed.symm.trans relisted)
      exact flag
  · rintro ⟨xKnown, under, rfl, rfl⟩
    induction x, under using EnvPath.under_induction with
    | root => exact .root
    | child q c under above inductionHypothesis =>
      have made := EnvPath.child_parent above
      have strict := EnvPath.child_ne_root made (EnvPath.startsWith_trans under (known.under p member))
      have qKnown := known.closed c xKnown strict q above
      obtain ⟨record, opens⟩ := Option.ne_none_iff_exists'.mp (inStep.there q qKnown)
      obtain ⟨e, listed, flag, key⟩ := known.lists c xKnown strict q above record opens
      rw [← flag]
      exact .entry (inductionHypothesis qKnown) opens listed made key

/-- A rediscovery below a known node ends, if it is followed far enough, and finds nothing that
was not known. -/
theorem InStep.discoverFrom (inStep : InStep home project vaults top keyOf) {p : EnvPath} (member : p ∈ project.paths) :
    (∃ bound, ∀ nodes, bound ≤ nodes → Owner.discoverFrom nodes project.owner vaults p (keyOf p) ≠ .error .unfinished) ∧
    ∀ nodes, Owner.discoverFrom nodes project.owner vaults p (keyOf p) = .error .unfinished ∨
      ∃ walk, Owner.discoverFrom nodes project.owner vaults p (keyOf p) = .ok (project.owner, walk) ∧ walk.vaults = vaults ∧
        walk.unreachable = [] := by
  have opened : ∀ x k s, Spans vaults p (keyOf p) ((project.owner.tree p).any (·.isSealed)) x k s →
      vaults (NodeKeys.vaultId k) ≠ none := by
    intro x k s spans
    obtain ⟨known, _, rfl, _⟩ := (inStep.spans_iff member).mp spans
    exact inStep.there x known
  have opens : (vaults (NodeKeys.vaultId (keyOf p))).isSome = true := Option.isSome_iff_ne_none.mpr (inStep.there p member)
  have quiet : Unheld project.owner vaults p (keyOf p) ((project.owner.tree p).any (·.isSealed)) :=
    fun x k s spans missing _ => absurd missing (opened x k s spans)
  have begins := spanning_begins vaults p (keyOf p) ((project.owner.tree p).any (·.isSealed))
  have never : ∀ v : ν, (none : Option OwnerError) ≠ some .unfinished := fun _ => by simp
  let first : Visit κ := ⟨p, keyOf p, (project.owner.tree p).any (·.isSealed), none⟩
  have unfolded : ∀ nodes, Owner.discoverFrom nodes project.owner vaults p (keyOf p) =
      (walkReading (fun _ => none) project.owner p nodes ⟨vaults, fun _ => none, [], []⟩ [first]).map
        fun walk => ({ project.owner with tree := replanted project.owner.tree p walk }, walk) := by
    intro nodes
    rw [walkReading_all]
    unfold Owner.discoverFrom
    dsimp only
    cases walkFrom project.owner p nodes ⟨vaults, fun _ => none, [], []⟩ [first] <;> rfl
  constructor
  · refine ⟨([first].map (weight vaults)).sum + 1, fun nodes enough cut => ?_⟩
    have ends := (walkReading_ends quiet opens never begins enough enough).2
    rw [unfolded] at cut
    cases walked : walkReading (fun _ => none) project.owner p nodes ⟨vaults, fun _ => none, [], []⟩ [first] with
    | error failure =>
      rw [walked] at cut
      obtain rfl : failure = .unfinished := Except.error.inj cut
      exact ends walked
    | ok walk =>
      rw [walked] at cut
      cases cut
  · intro nodes
    rw [unfolded]
    cases walked : walkReading (fun _ => none) project.owner p nodes ⟨vaults, fun _ => none, [], []⟩ [first] with
    | error failure =>
      obtain rfl | ⟨x, k, s, _, unread⟩ := walkReading_fails quiet opens begins walked
      · exact .inl rfl
      · cases unread
    | ok walk =>
      have spanning := walkReading_spanning quiet opens begins walked
      have replants := spanning.replants
      have reached : walk.unreachable = [] := by
        refine List.eq_nil_iff_forall_not_mem.mpr fun u among => ?_
        obtain ⟨k, s, spans, missing⟩ := (replants.unopened u).mp among
        exact opened u k s spans missing
      refine .inr ⟨walk, ?_, spanning.same, reached⟩
      have same : replanted project.owner.tree p walk = project.owner.tree := by
        funext x
        cases under : x.startsWith p with
        | false => exact replants.elsewhere x under
        | true =>
          refine Option.ext fun node => ?_
          rw [replants.below x under node, reached]
          constructor
          · rintro (⟨k, s, spans, rfl⟩ | ⟨_, _, impossible, _⟩)
            · obtain ⟨known, _, rfl, rfl⟩ := (inStep.spans_iff member).mp spans
              exact inStep.known.node known
            · cases impossible
          · intro noted
            obtain ⟨known, same⟩ := inStep.known.of_node noted
            exact .inl ⟨_, _, (inStep.spans_iff member).mpr ⟨known, under, rfl, rfl⟩, same⟩
      rw [Except.map, same]

/-! ## Removals -/

/-- What is left of an owner's state and of the vaults once some nodes are removed. -/
structure Removed (owner : Local κ ν) (vaults : Vaults κ ν) (keyOf : EnvPath → κ) (gone : List EnvPath) (after : Local κ ν)
    (vaults' : Vaults κ ν) : Prop where
  server : after.server = owner.server
  tree : ∀ p, after.tree p = if p ∈ gone then none else owner.tree p
  held : ∀ h, h ∈ after.held ↔ h ∈ owner.held ∧ h ∉ gone
  once : after.held.Nodup
  keys : ∀ p, after.keys p = if p ∈ gone ∧ p ∈ owner.held then none else owner.keys p
  deleted : ∀ n ∈ gone, vaults' (NodeKeys.vaultId (keyOf n)) = none
  kept : ∀ v, (∀ n ∈ gone, v ≠ NodeKeys.vaultId (keyOf n)) → vaults' v = vaults v

omit [DecidableEq ν] in
/-- The next key depends on the child's node and the parent's vault only. -/
theorem nextKey_congr {vaults' : Vaults κ ν} {tree tree' : EnvPath → Option (TreeNode ν)} {key : κ} {seg : String}
    {child : EnvPath} (sameNode : tree' child = tree child)
    (sameVault : vaults' (NodeKeys.vaultId key) = vaults (NodeKeys.vaultId key)) :
    nextKey vaults' tree' key seg child = nextKey vaults tree key seg child := by
  simp only [nextKey, sameNode, sameVault]

/-- The way down to a node that is not at or below a removed one stays. -/
theorem Reaches.removeNode {p n : EnvPath} (reaches : Reaches owner vaults top keyOf p) (outside : p.startsWith n = false)
    (apart : ∀ q, q.startsWith top = true → p.startsWith q = true → NodeKeys.vaultId (keyOf q) ≠ NodeKeys.vaultId (keyOf n)) :
    Reaches (removeNode owner vaults n (keyOf n)).1 (removeNode owner vaults n (keyOf n)).2 top keyOf p := by
  have other : ∀ {q}, p.startsWith q = true → q ≠ n := by
    rintro q above rfl
    rw [outside] at above
    cases above
  constructor
  case under => exact reaches.under
  case topmost => exact (List.mem_erase_of_ne (other reaches.under)).mpr reaches.topmost
  case held =>
    intro h held above
    obtain ⟨under, key⟩ := reaches.held h (List.mem_of_mem_erase held) above
    refine ⟨under, ?_⟩
    unfold Owner.removeNode
    dsimp only
    split
    · rw [Function.update_of_ne (other above), key]
    · exact key
  case next =>
    intro q c above under beneath
    have upper := EnvPath.startsWith_trans beneath (EnvPath.startsWith_child (EnvPath.child_parent above))
    exact (nextKey_congr (Function.update_of_ne (other beneath) ..) (Function.update_of_ne (apart q under upper) ..)).trans
      (reaches.next q c above under beneath)

/-- Nodes to which there is a way down are removed, each before what is above it. -/
theorem removeNodes_spec {gone : List EnvPath} (reach : ∀ n ∈ gone, Reaches owner vaults top keyOf n)
    (order : gone.Pairwise fun a b => b.startsWith a = false)
    (homed : ∀ n ∈ gone, ∀ q, q.startsWith top = true → n.startsWith q = true → home (NodeKeys.vaultId (keyOf q)) = q)
    (once : owner.held.Nodup) :
    ∃ after vaults', removeNodes owner vaults gone = (.ok (), after, vaults') ∧
      Removed owner vaults keyOf gone after vaults' := by
  induction gone generalizing owner vaults with
  | nil =>
    refine ⟨owner, vaults, rfl, ?_⟩
    constructor
    all_goals simp [once]
  | cons n rest inductionHypothesis =>
    obtain ⟨below, order⟩ := List.pairwise_cons.mp order
    have homedHere : home (NodeKeys.vaultId (keyOf n)) = n :=
      homed n List.mem_cons_self n (reach n List.mem_cons_self).under n.startsWith_refl
    have later : ∀ m ∈ rest, Reaches (removeNode owner vaults n (keyOf n)).1 (removeNode owner vaults n (keyOf n)).2 top keyOf m := by
      intro m member
      refine (reach m (List.mem_cons_of_mem _ member)).removeNode (below m member) fun q under above same => ?_
      have homedThere := homed m (List.mem_cons_of_mem _ member) q under above
      rw [same, homedHere] at homedThere
      rw [← homedThere, below m member] at above
      cases above
    obtain ⟨after, vaults', runs, removed⟩ := inductionHypothesis later order
      (fun m member => homed m (List.mem_cons_of_mem _ member)) (once.erase n)
    refine ⟨after, vaults', ?_, ?_⟩
    · rw [removeNodes, (reach n List.mem_cons_self).chain_bind]
      exact runs
    · have erased : ∀ h, h ∈ owner.held.erase n ↔ h ≠ n ∧ h ∈ owner.held := fun h => once.mem_erase_iff
      constructor
      case server => exact removed.server
      case tree =>
        intro p
        rw [removed.tree, removeNode]
        by_cases here : p = n
        · simp [here]
        · simp [here, Function.update_of_ne]
      case held =>
        intro h
        rw [removed.held, removeNode, erased, List.mem_cons, not_or]
        tauto
      case once => exact removed.once
      case keys =>
        intro p
        rw [removed.keys, removeNode]
        by_cases here : p = n
        · subst here
          by_cases held : p ∈ owner.held
          · simp [erased, held]
          · simp [erased, held]
        · by_cases held : n ∈ owner.held
          · simp [erased, here, held, Function.update_of_ne]
          · simp [erased, here, held]
      case deleted =>
        intro m member
        by_cases among : ∃ l ∈ rest, NodeKeys.vaultId (keyOf m) = NodeKeys.vaultId (keyOf l)
        · obtain ⟨l, inRest, same⟩ := among
          rw [same]
          exact removed.deleted l inRest
        · obtain rfl | inRest := List.mem_cons.mp member
          · rw [removed.kept _ fun l inRest same => among ⟨l, inRest, same⟩]
            exact Function.update_self ..
          · exact absurd ⟨m, inRest, rfl⟩ among
      case kept =>
        intro v other
        rw [removed.kept v fun l inRest => other l (List.mem_cons_of_mem _ inRest)]
        exact Function.update_of_ne (other n List.mem_cons_self) ..

omit [NodeKeys κ ν] [DecidableEq ν] in
theorem mem_descendants {paths : List EnvPath} {path p : EnvPath} :
    p ∈ descendants paths path ↔ p ∈ paths ∧ p ≠ path ∧ p.startsWith path = true := by
  rw [descendants, List.mem_insertionSort, List.mem_filter]
  simp

/-- A path's descendants and the path itself, deepest first: each comes before what is above
it. -/
theorem descendants_order {paths : List EnvPath} (distinct : paths.Nodup) (path : EnvPath) :
    (descendants paths path ++ [path]).Pairwise fun a b => b.startsWith a = false := by
  have depths : (descendants paths path).Pairwise fun a b => b.depth ≤ a.depth := by
    have sorted := List.pairwise_insertionSort (fun a b : EnvPath => b.depth ≤ a.depth)
      (paths.filter fun k => k ≠ path && k.startsWith path)
    exact sorted
  have apart : (descendants paths path).Nodup :=
    (List.perm_insertionSort _ _).nodup_iff.mpr (distinct.filter _)
  have lower : ∀ {a b : EnvPath}, b.startsWith a = true → b.depth ≤ a.depth → b = a := by
    intro a b under shallow
    exact EnvPath.ext ((EnvPath.startsWith_iff.mp under).eq_of_length_le shallow).symm
  rw [List.pairwise_append]
  refine ⟨?_, List.pairwise_singleton _ _, ?_⟩
  · refine (depths.and apart).imp ?_
    rintro a b ⟨shallow, different⟩
    rw [← Bool.not_eq_true]
    exact fun under => different (lower under shallow).symm
  · intro a member b last
    obtain rfl := List.mem_singleton.mp last
    obtain ⟨_, strict, under⟩ := mem_descendants.mp member
    rw [← Bool.not_eq_true]
    exact fun above => strict (EnvPath.startsWith_antisymm under above)

end

end GalataVault.Owner
