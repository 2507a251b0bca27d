import GalataVault.Owner.Trees

/-!
# Additions that are cut short

To add an environment takes three steps, and nothing undoes the first ones when a later one is
not taken. If only the vault was created, the same call again does all of it. If the parent
lists the environment too, but the owner never noted it, the same call is refused, and a
rediscovery of any known node above notes it as the whole call would have.
-/

namespace GalataVault.Owner

variable {κ ν : Type} [NodeKeys κ ν] [DecidableEq ν]

/-- After which of its steps an addition is cut short. -/
inductive AddCut where
  | created
  | listed
deriving DecidableEq

/-- What an addition that is cut short leaves on the server. Nothing is noted. -/
def envAddCut (cut : AddCut) (project : Project κ ν) (vaults : Vaults κ ν) (path : EnvPath) : Vaults κ ν :=
  match envAddKeys project vaults path with
  | .error _ => vaults
  | .ok (parentKey, key) =>
    let created := Vaults.create vaults (NodeKeys.vaultId key)
    match cut with
    | .created => created
    | .listed => (listed created parentKey path.last).getD created

/-! ## What a walk depends on -/

/-- A walk depends on an owner's keys only, not on the tree it knows. -/
theorem walkFrom_keys {owner other : Local κ ν} (sameKeys : other.keys = owner.keys) (root : EnvPath) (nodes : Nat)
    (walk : Walk κ ν) (pending : List (Visit κ)) : walkFrom other root nodes walk pending = walkFrom owner root nodes walk pending := by
  induction nodes generalizing walk pending with
  | zero => rfl
  | succ nodes inductionHypothesis =>
    cases pending with
    | nil => rfl
    | cons visit rest =>
      have opens : openNode other walk.vaults visit = openNode owner walk.vaults visit := by
        unfold openNode relink
        rw [sameKeys]
      unfold walkFrom
      rw [opens]
      simp only [inductionHypothesis]

/-- Every node a walk found was opened, or could not be. -/
theorem walkFrom_found {owner : Local κ ν} {root : EnvPath} {nodes : Nat} {walk after : Walk κ ν} {pending : List (Visit κ)}
    (before : ∀ x, walk.found x ≠ none → x ∈ walk.opened.map Prod.fst ∨ x ∈ walk.unreachable)
    (walked : walkFrom owner root nodes walk pending = .ok after) :
    ∀ x, after.found x ≠ none → x ∈ after.opened.map Prod.fst ∨ x ∈ after.unreachable := by
  induction nodes generalizing walk pending with
  | zero => cases walked
  | succ nodes inductionHypothesis =>
    cases pending with
    | nil =>
      obtain rfl := Except.ok.inj walked
      exact before
    | cons visit rest =>
      unfold walkFrom at walked
      split at walked
      · split at walked
        · cases walked
        refine inductionHypothesis (fun x found => ?_) walked
        by_cases here : x = visit.path
        · exact .inr (by simp [here])
        · dsimp only at found
          rw [Function.update_of_ne here] at found
          exact (before x found).imp_right (List.mem_append_left _)
      · split at walked
        · cases walked
        refine inductionHypothesis (fun x found => ?_) walked
        by_cases here : x = visit.path
        · exact .inl (by simp [here])
        · dsimp only at found
          rw [Function.update_of_ne here] at found
          exact (before x found).imp_left (List.mem_cons_of_mem _)

/-- What is found below a root does not depend on the tree that is known, except for how the root's
own key is kept. -/
theorem discoverFrom_keys {owner other : Local κ ν} (sameKeys : other.keys = owner.keys) {root : EnvPath}
    (sameRoot : other.tree root = owner.tree root) (nodes : Nat) (vaults : Vaults κ ν) (key : κ) :
    discoverFrom nodes other vaults root key = (discoverFrom nodes owner vaults root key).map fun found =>
      ({ other with tree := replanted other.tree root found.2 }, found.2) := by
  unfold discoverFrom
  dsimp only
  rw [sameRoot, walkFrom_keys sameKeys]
  cases walkFrom owner root nodes ⟨vaults, fun _ => none, [], []⟩
    [⟨root, key, (owner.tree root).any fun x => x.isSealed, none⟩] <;> rfl

omit [NodeKeys κ ν] [DecidableEq ν] in
/-- Below a root all of which was opened, a replanted tree does not depend on what was known. -/
theorem replanted_below {tree other : EnvPath → Option (TreeNode ν)} {root : EnvPath} {walk : Walk κ ν}
    (elsewhere : ∀ x, x.startsWith root = false → other x = tree x) (reached : walk.unreachable = []) :
    replanted other root walk = replanted tree root walk := by
  funext x
  unfold replanted
  rw [reached]
  cases under : x.startsWith root with
  | true => rfl
  | false => simp [elsewhere x under]

section

variable {home : ν → EnvPath} {project : Project κ ν} {vaults : Vaults κ ν} {top : EnvPath} {keyOf : EnvPath → κ}

/-- The way down to a known node is not changed by a vault that is not one of a known node. -/
theorem InStep.reaches_created (inStep : InStep home project vaults top keyOf) {q : EnvPath} (member : q ∈ project.paths)
    {vault : ν} (unborn : vaults vault = none) (record : ChildrenRecord κ) :
    Reaches project.owner (Function.update vaults vault (some record)) top keyOf q where
  under := (inStep.reaches member).under
  topmost := (inStep.reaches member).topmost
  held := (inStep.reaches member).held
  next x c above under beneath := by
    have parentKnown : x ∈ project.paths :=
      inStep.known.above member under (EnvPath.startsWith_trans beneath (EnvPath.startsWith_child (EnvPath.child_parent above)))
    refine (nextKey_congr rfl (Function.update_of_ne ?_ _ _)).trans ((inStep.reaches member).next x c above under beneath)
    rintro same
    exact inStep.there x parentKnown (same ▸ unborn)

omit [DecidableEq ν] in
/-- From the state in which the parent lists an environment that the owner never noted, the way
down to a known node is as before. -/
theorem InStep.reaches_listed (inStep : InStep home project vaults top keyOf) {p : EnvPath} {vault : ν} {key : κ}
    {vaults' : Vaults κ ν} (inStepAfter : InStep home (project.note p vault) vaults' top (keyAdded keyOf p key))
    (new : p ∉ project.paths) {r : EnvPath} (member : r ∈ project.paths) : Reaches project.owner vaults' top keyOf r where
  under := (inStep.reaches member).under
  topmost := (inStep.reaches member).topmost
  held := (inStep.reaches member).held
  next x c above under beneath := by
    have made := EnvPath.startsWith_child (EnvPath.child_parent above)
    have old : ∀ {y}, y.startsWith top = true → r.startsWith y = true → y ≠ p := by
      rintro y underTop upper rfl
      exact new (inStep.known.above member underTop upper)
    have oldChild : c ≠ p := old (EnvPath.startsWith_trans made under) beneath
    have oldParent : x ≠ p := old under (EnvPath.startsWith_trans beneath made)
    have next := (inStepAfter.reaches (List.mem_append_left _ member)).next x c above under beneath
    rw [keyAdded, Function.update_of_ne oldChild, Function.update_of_ne oldParent] at next
    exact (nextKey_congr (Function.update_of_ne oldChild ..).symm rfl).trans next

/-- A rediscovery above an environment that the parent lists and the owner never noted ends, if
it is followed far enough, and notes that environment as adding it would have. -/
theorem InStep.notes_listed (inStep : InStep home project vaults top keyOf) {p : EnvPath} {vault : ν} {key : κ}
    {vaults' : Vaults κ ν} (inStepAfter : InStep home (project.note p vault) vaults' top (keyAdded keyOf p key))
    (new : p ∉ project.paths) {r : EnvPath} (member : r ∈ project.paths) (under : p.startsWith r = true) :
    (∃ bound, ∀ nodes, bound ≤ nodes → (envDiscover nodes project vaults' r).1 ≠ .error (.owner .unfinished)) ∧
    ∀ nodes, envDiscover nodes project vaults' r = (.error (.owner .unfinished), project, vaults') ∨
      ∃ found, envDiscover nodes project vaults' r = (.ok [], found, vaults') ∧ found.owner = (project.note p vault).owner ∧
        ∀ x, x ∈ found.paths ↔ x ∈ (project.note p vault).paths := by
  have old : r ≠ p := by
    rintro rfl
    exact new member
  have memberAfter : r ∈ (project.note p vault).paths := List.mem_append_left _ member
  have sameKey : keyAdded keyOf p key r = keyOf r := Function.update_of_ne old ..
  have knows : project.owner.knows r = true := inStep.knows.mpr member
  have opens : ∀ nodes, discover nodes project.owner vaults' r =
      (Owner.discoverFrom nodes (project.note p vault).owner vaults' r (keyOf r)).map fun found =>
        ({ project.owner with tree := replanted project.owner.tree r found.2 }, found.2) := by
    intro nodes
    obtain ⟨list, chains, ends⟩ := (inStep.reaches_listed inStepAfter new member).chain
    rw [discover, if_pos knows, chains]
    change (chainEnd list >>= _) = _
    rw [ends]
    have sameRoot : project.owner.tree r = (project.note p vault).owner.tree r := (Function.update_of_ne old ..).symm
    exact discoverFrom_keys (show project.owner.keys = (project.note p vault).owner.keys from rfl) sameRoot nodes vaults' (keyOf r)
  obtain ⟨⟨bound, enough⟩, walks⟩ := inStepAfter.discoverFrom memberAfter
  rw [sameKey] at enough walks
  constructor
  · refine ⟨bound, fun nodes long => ?_⟩
    obtain cut | ⟨walk, found, _, _⟩ := walks nodes
    · exact absurd cut (enough nodes long)
    · unfold envDiscover
      rw [opens, found]
      exact fun impossible => (by cases impossible)
  · intro nodes
    obtain cut | ⟨walk, found, same, reached⟩ := walks nodes
    · refine .inl ?_
      unfold envDiscover
      rw [opens, cut]
      rfl
    · refine .inr ⟨project.rediscovered (project.note p vault).owner walk, ?_, rfl, fun x => ?_⟩
      · have noted : replanted (project.note p vault).owner.tree r walk = (project.note p vault).owner.tree :=
          congrArg (·.tree) (discoverFrom_ok found).1.symm
        have agrees : replanted project.owner.tree r walk = (project.note p vault).owner.tree := by
          rw [← noted]
          have outsideSame : ∀ x, x.startsWith r = false → project.owner.tree x = (project.note p vault).owner.tree x := by
            intro x outside
            refine (Function.update_of_ne ?_ ..).symm
            rintro rfl
            rw [under] at outside
            cases outside
          exact replanted_below outsideSame reached
        unfold envDiscover
        rw [opens, found]
        simp only [Except.map, agrees, same, reached]
        rfl
      · have foundNew : walk.found p ≠ none := by
          intro unfound
          have noted : replanted (project.note p vault).owner.tree r walk p = some ⟨vault, false⟩ := by
            rw [show replanted (project.note p vault).owner.tree r walk = (project.note p vault).owner.tree from
              congrArg (·.tree) (discoverFrom_ok found).1.symm]
            exact Function.update_self ..
          simp [replanted, unfound, under, reached] at noted
        have openedNew : p ∈ walk.opened.map Prod.fst := by
          obtain opened | impossible := walkFrom_found (fun _ none => absurd rfl none) (discoverFrom_ok found).2 p foundNew
          · exact opened
          · rw [reached] at impossible
            cases impossible
        rw [Project.rediscovered, List.mem_filter, List.mem_dedup, inStepAfter.knows]
        refine ⟨And.right, fun noted => ⟨?_, noted⟩⟩
        obtain earlier | here := List.mem_append.mp noted
        · exact List.mem_append_left _ earlier
        · obtain rfl := List.mem_singleton.mp here
          exact List.mem_append_right _ (List.mem_append_left _ openedNew)

/-- For every environment that an owner in step with the server may add, wherever the addition is
cut short: if only the vault was created, the same call again does what the whole call would have
done. If the environment is listed too, the server is as the whole call would have left it, the
same call is refused, and a rediscovery of any known node above has the owner note it. -/
theorem interrupted_addition
    (derived : ∀ (k : κ) seg p, (home (NodeKeys.vaultId k)).child seg = some p → home (NodeKeys.vaultId (NodeKeys.child k seg)) = p)
    (inStep : InStep home project vaults top keyOf) {p q : EnvPath} (above : p.parent = some q)
    (parentKnown : q ∈ project.paths) (new : p ∉ project.paths) :
    ∃ after vaults', envAdd project vaults p = (.ok (), after, vaults') ∧
      envAdd project (envAddCut .created project vaults p) p = (.ok (), after, vaults') ∧
      envAddCut .listed project vaults p = vaults' ∧
      envAdd project vaults' p = (.error .envExists, project, vaults') ∧
      ∀ r ∈ project.paths, p.startsWith r = true →
        (∃ bound, ∀ nodes, bound ≤ nodes → (envDiscover nodes project vaults' r).1 ≠ .error (.owner .unfinished)) ∧
        ∀ nodes, envDiscover nodes project vaults' r = (.error (.owner .unfinished), project, vaults') ∨
          ∃ found, envDiscover nodes project vaults' r = (.ok [], found, vaults') ∧ found.owner = after.owner ∧
            ∀ x, x ∈ found.paths ↔ x ∈ after.paths := by
  obtain ⟨record, vaults', keys, runs, there, homedNew, added⟩ := inStep.envAdd derived above parentKnown new
  have inStepAfter := inStep.added above parentKnown new homedNew there added
  have underTop := EnvPath.startsWith_trans (EnvPath.startsWith_child (EnvPath.child_parent above))
    (inStep.known.under q parentKnown)
  have unborn := inStep.unborn underTop new homedNew
  have apart : NodeKeys.vaultId (keyOf q) ≠ NodeKeys.vaultId (NodeKeys.child (keyOf q) p.last) := by
    intro same
    rw [← same, there] at unborn
    cases unborn
  have knowsParent : project.owner.knows q = true := inStep.knows.mpr parentKnown
  have unknown : project.owner.knows p = false := by
    rw [← Bool.not_eq_true]
    exact fun knows => new (inStep.knows.mp knows)
  have created : Vaults.create vaults (NodeKeys.vaultId (NodeKeys.child (keyOf q) p.last)) =
      Function.update vaults (NodeKeys.vaultId (NodeKeys.child (keyOf q) p.last)) (some .empty) := by
    rw [Vaults.create, unborn]
    rfl
  have lists : listed (Vaults.create vaults (NodeKeys.vaultId (NodeKeys.child (keyOf q) p.last))) (keyOf q) p.last = some vaults' := by
    unfold envAdd at runs
    rw [keys] at runs
    dsimp only at runs
    split at runs
    · cases runs
    · rename_i found
      rw [found]
      exact congrArg some (congrArg (·.2.2) runs)
  refine ⟨_, vaults', runs, ?_, ?_, ?_, fun r member under => inStep.notes_listed inStepAfter new member under⟩
  · have leftover : envAddCut .created project vaults p =
        Vaults.create vaults (NodeKeys.vaultId (NodeKeys.child (keyOf q) p.last)) := by
      unfold envAddCut
      rw [keys]
    have again : envAddKeys project (Vaults.create vaults (NodeKeys.vaultId (NodeKeys.child (keyOf q) p.last))) p =
        .ok (keyOf q, NodeKeys.child (keyOf q) p.last) := by
      rw [created]
      unfold envAddKeys
      simp only [above, knowsParent, unknown, (inStep.reaches_created parentKnown unborn .empty).chain_bind,
        Function.update_of_ne apart, there, inStep.unlisted above parentKnown new there]
      rfl
    have once : Vaults.create (Vaults.create vaults (NodeKeys.vaultId (NodeKeys.child (keyOf q) p.last)))
        (NodeKeys.vaultId (NodeKeys.child (keyOf q) p.last)) =
        Vaults.create vaults (NodeKeys.vaultId (NodeKeys.child (keyOf q) p.last)) := by
      rw [created, Vaults.create, Function.update_self]
      rfl
    rw [leftover]
    unfold envAdd
    simp only [again, once, lists]
  · unfold envAddCut
    simp only [keys, lists, Option.getD_some]
  · have relisted : (record.insertMissing ⟨p.last, .derived⟩).get p.last = some ⟨p.last, .derived⟩ := by
      rw [ChildrenRecord.get_insertMissing, inStep.unlisted above parentKnown new there]
      simp
    unfold envAdd envAddKeys
    simp only [above, knowsParent, unknown, (inStep.reaches_listed inStepAfter new parentKnown).chain_bind, added.parent, relisted]
    rfl

end

/-- An environment below a project that was just created. -/
theorem interrupted_addition_prod : ∃ (project after : Project PlainKey PlainKey) (vaults vaults' : Vaults PlainKey PlainKey),
    envAdd project vaults acmeProd = (.ok (), after, vaults') ∧
      envAdd project (envAddCut .created project vaults acmeProd) acmeProd = (.ok (), after, vaults') ∧
      envAdd project (envAddCut .listed project vaults acmeProd) acmeProd = (.error .envExists, project, vaults') := by
  have homed : PlainKey.node (NodeKeys.vaultId (⟨acme, 0⟩ : PlainKey)) = acme := rfl
  have fresh : ∀ v, (PlainKey.node v).startsWith acme = true → (fun _ => none : Vaults PlainKey PlainKey) v = none := fun _ _ => rfl
  obtain ⟨vaults, _, matched, _⟩ := created_matches "vault.example" homed fresh
  obtain ⟨project, keyOf, _, inStep, same⟩ | ⟨none, _⟩ := matched
  · have parentKnown := (same acme).mp rfl
    have new : acmeProd ∉ project.paths := fun member => absurd ((same acmeProd).mpr member) (by decide)
    obtain ⟨after, vaults', runs, again, lists, refused, _⟩ :=
      interrupted_addition plain_derived inStep (show acmeProd.parent = some acme by decide) parentKnown new
    refine ⟨project, after, vaults, vaults', runs, again, ?_⟩
    rw [lists]
    exact refused
  · exact absurd rfl (none acme)

end GalataVault.Owner
