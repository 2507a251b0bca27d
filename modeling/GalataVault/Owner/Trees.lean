import Mathlib.Data.Set.Basic
import GalataVault.Owner.Removals

/-!
# A project's calls are those of a tree of paths

Whatever a project's single owner does, in any order, each call succeeds exactly when the
tree of paths allows it, and leaves the owner's state and the server as the tree that comes
of it has them: what is known, whose vaults are there, and which key a chain leads to. The
vaults of other projects stay as they are.
-/

namespace GalataVault.Owner

/-! ## Trees of paths -/

/-- What an owner asks for. -/
inductive TreeOp where
  | add (path : EnvPath)
  | remove (path : EnvPath) (recursive : Bool)
  | discover (path : EnvPath)
deriving DecidableEq

namespace PathTree

/-- What a tree allows. -/
def allows (tree : Set EnvPath) : TreeOp → Prop
  | .add p => p ∉ tree ∧ ∃ q ∈ tree, p.parent = some q
  | .remove p recursive => p ∈ tree ∧ (recursive = true ∨ ∀ x ∈ tree, x.startsWith p = true → x = p)
  | .discover p => p ∈ tree

/-- The tree after what it allows. -/
def grown (tree : Set EnvPath) : TreeOp → Set EnvPath
  | .add p => {x | x ∈ tree ∨ x = p}
  | .remove p _ => {x | x ∈ tree ∧ x.startsWith p = false}
  | .discover _ => tree

open Classical in
/-- What is not allowed changes nothing. -/
noncomputable def step (tree : Set EnvPath) (op : TreeOp) : Set EnvPath := if allows tree op then grown tree op else tree

theorem step_allowed {tree : Set EnvPath} {op : TreeOp} (allowed : allows tree op) : step tree op = grown tree op :=
  if_pos allowed

theorem step_refused {tree : Set EnvPath} {op : TreeOp} (refused : ¬allows tree op) : step tree op = tree := if_neg refused

end PathTree

/-! ## The owner's calls -/

/-- An owner's project, if there is one, and the server. -/
structure Site (κ ν : Type) where
  project : Option (Project κ ν)
  vaults : Vaults κ ν

variable {κ ν : Type} [NodeKeys κ ν] [DecidableEq ν]

/-- One call, and how many nodes a walk of it is followed for. -/
def Site.call (site : Site κ ν) : Nat × TreeOp → Except ChangeError Unit × Site κ ν
  | (_, .add path) =>
    match site.project with
    | none => (.error (if path.parent = none then .isProject else .owner .unknownPath), site)
    | some project =>
      let (outcome, project, vaults) := envAdd project site.vaults path
      (outcome, ⟨some project, vaults⟩)
  | (nodes, .remove path recursive) =>
    match site.project with
    | none => (.error (.owner .unknownPath), site)
    | some project =>
      let (outcome, project, vaults) := envRemove nodes project site.vaults path recursive
      (outcome.map fun _ => (), ⟨project, vaults⟩)
  | (nodes, .discover path) =>
    match site.project with
    | none => (.error (.owner .unknownPath), site)
    | some project =>
      let (outcome, project, vaults) := envDiscover nodes project site.vaults path
      (outcome.map fun _ => (), ⟨some project, vaults⟩)

/-- The state after a call. -/
def Site.step (site : Site κ ν) (c : Nat × TreeOp) : Site κ ν := (site.call c).2

/-- A node that is removed is not held itself, unless it is the topmost. -/
def Free (top : EnvPath) (site : Site κ ν) : TreeOp → Prop
  | .remove path _ => ∀ project ∈ site.project, path ∈ project.owner.held → path = top
  | _ => True

/-- A call whose walks are followed to their ends. -/
def Finishes (site : Site κ ν) (c : Nat × TreeOp) : Prop := (site.call c).1 ≠ .error (.owner .unfinished)

/-- A call that goes as the source's does: the node it removes is not held, and it finishes. -/
def Smooth (top : EnvPath) (site : Site κ ν) (c : Nat × TreeOp) : Prop := Free top site c.2 ∧ Finishes site c

/-- An owner and the server are as a tree has them, or there is nothing left of the project. -/
def Matches (home : ν → EnvPath) (top : EnvPath) (site : Site κ ν) (tree : Set EnvPath) : Prop :=
  (∃ project keyOf, site.project = some project ∧ InStep home project site.vaults top keyOf ∧
    ∀ p, p ∈ tree ↔ p ∈ project.paths) ∨
  (∀ p, p ∉ tree) ∧ Ended home top site.project site.vaults

/-- What can be told of an owner and the server from the tree: what is known, which key a
chain leads to, and which vaults there are. -/
structure Mirrors (home : ν → EnvPath) (top : EnvPath) (site : Site κ ν) (tree : Set EnvPath) : Prop where
  known : ∀ p, p ∈ tree ↔ ∃ project ∈ site.project, project.owner.knows p = true
  keys : ∀ project ∈ site.project, ∀ p ∈ tree, ∃ list key, chain project.owner site.vaults p = .ok list ∧
    chainEnd list = .ok key ∧ (project.owner.tree p).map (·.vaultId) = some (NodeKeys.vaultId key) ∧
    site.vaults (NodeKeys.vaultId key) ≠ none
  vaults : ∀ v, (home v).startsWith top = true → site.vaults v ≠ none →
    ∃ project ∈ site.project, ∃ p ∈ tree, (project.owner.tree p).map (·.vaultId) = some v

section

variable {home : ν → EnvPath} {top : EnvPath} {site : Site κ ν} {tree : Set EnvPath}

omit [DecidableEq ν] in
theorem Matches.mirrors (matched : Matches home top site tree) : Mirrors home top site tree := by
  obtain ⟨project, keyOf, there, inStep, same⟩ | ⟨none, ended⟩ := matched
  · constructor
    case known =>
      intro p
      rw [same, ← inStep.knows]
      constructor
      · exact fun knows => ⟨project, there, knows⟩
      · rintro ⟨other, isProject, knows⟩
        obtain rfl := Option.some.inj (there.symm.trans isProject)
        exact knows
    case keys =>
      intro other isProject p member
      obtain rfl := Option.some.inj (there.symm.trans isProject)
      have known := (same p).mp member
      obtain ⟨list, chains, ends⟩ := (inStep.reaches known).chain
      exact ⟨list, keyOf p, chains, ends, inStep.known.recorded p known, inStep.there p known⟩
    case vaults =>
      intro v under present
      obtain ⟨p, known, rfl⟩ := inStep.only v present under
      exact ⟨project, there, p, (same p).mpr known, inStep.known.recorded p known⟩
  · constructor
    case known =>
      intro p
      constructor
      · exact fun member => absurd member (none p)
      · rintro ⟨project, isProject, knows⟩
        rw [Local.knows, ended.forgotten project isProject p] at knows
        cases knows
    case keys => exact fun _ _ p member => absurd member (none p)
    case vaults => exact fun v under present => absurd (ended.deleted v under) present

/-! ## One call -/

/-- What one call does, told from the tree. -/
structure Follows (home : ν → EnvPath) (top : EnvPath) (site : Site κ ν) (tree : Set EnvPath) (c : Nat × TreeOp) : Prop where
  succeeds : (site.call c).1 = .ok () ↔ PathTree.allows tree c.2
  matched : Matches home top (site.step c) (PathTree.step tree c.2)
  elsewhere : ∀ v, (home v).startsWith top = false → (site.step c).vaults v = site.vaults v
  ends : Finishes site c

/-- A call that is refused and leaves everything as it was. -/
theorem Follows.refused {c : Nat × TreeOp} (failure : ChangeError) (project : Option (Project κ ν))
    (runs : site.call c = (.error failure, ⟨project, site.vaults⟩)) (source : failure ≠ .owner .unfinished)
    (refused : ¬PathTree.allows tree c.2) (matched : Matches home top ⟨project, site.vaults⟩ tree) : Follows home top site tree c where
  succeeds := by
    rw [runs]
    exact ⟨fun impossible => (by cases impossible), fun allowed => absurd allowed refused⟩
  matched := by
    rw [PathTree.step_refused refused, Site.step, runs]
    exact matched
  elsewhere := by
    intro v _
    rw [Site.step, runs]
  ends := by
    rw [Finishes, runs]
    exact fun same => source (Except.error.inj same)

/-- A call that is allowed and done. -/
theorem Follows.allowed {c : Nat × TreeOp} (after : Site κ ν) (runs : site.call c = (.ok (), after))
    (allowed : PathTree.allows tree c.2) (matched : Matches home top after (PathTree.grown tree c.2))
    (elsewhere : ∀ v, (home v).startsWith top = false → after.vaults v = site.vaults v) : Follows home top site tree c where
  succeeds := by
    rw [runs]
    exact ⟨fun _ => allowed, fun _ => rfl⟩
  matched := by
    rw [PathTree.step_allowed allowed, Site.step, runs]
    exact matched
  elsewhere := by
    intro v outside
    rw [Site.step, runs]
    exact elsewhere v outside
  ends := by
    rw [Finishes, runs]
    exact fun impossible => (by cases impossible)

/-- Once nothing is left of a project, every call is refused. -/
theorem Ended.follows (none : ∀ p, p ∉ tree) (ended : Ended home top site.project site.vaults) (c : Nat × TreeOp) :
    Follows home top site tree c := by
  have refused : ¬PathTree.allows tree c.2 := by
    obtain ⟨_, op⟩ := c
    cases op with
    | add p =>
      rintro ⟨_, q, member, _⟩
      exact none q member
    | remove p recursive =>
      rintro ⟨member, _⟩
      exact none p member
    | discover p => exact none p
  have still : Matches home top ⟨site.project, site.vaults⟩ tree := .inr ⟨none, ended⟩
  obtain ⟨project, vaults⟩ := site
  cases project with
  | none =>
    obtain ⟨nodes, op⟩ := c
    cases op with
    | add p => exact .refused _ _ rfl (by split <;> simp) refused still
    | remove p recursive => exact .refused _ _ rfl (by simp) refused still
    | discover p => exact .refused _ _ rfl (by simp) refused still
  | some project =>
    have unknown : ∀ p, project.owner.knows p = false := by
      intro p
      rw [Local.knows, ended.forgotten project rfl p]
      rfl
    obtain ⟨nodes, op⟩ := c
    cases op with
    | add p =>
      cases parent : p.parent with
      | none =>
        refine .refused .isProject _ ?_ (by simp) refused still
        simp [Site.call, envAdd, envAddKeys, parent]
      | some q =>
        refine .refused (.owner .unknownPath) _ ?_ (by simp) refused still
        simp [Site.call, envAdd, envAddKeys, parent, unknown]
    | remove p recursive =>
      refine .refused (.owner .unknownPath) _ ?_ (by simp) refused still
      simp [Site.call, envRemove, unknown, Except.map]
    | discover p =>
      refine .refused (.owner .unknownPath) _ ?_ (by simp) refused still
      simp [Site.call, envDiscover, discover, unknown, Except.map]

/-- In step with the server a call does what the tree has it do, if the walk it makes is followed
to its end. -/
theorem InStep.follows_or_cut
    (derived : ∀ (k : κ) seg p, (home (NodeKeys.vaultId k)).child seg = some p → home (NodeKeys.vaultId (NodeKeys.child k seg)) = p)
    {project : Project κ ν} {vaults : Vaults κ ν} {keyOf : EnvPath → κ} (inStep : InStep home project vaults top keyOf)
    (same : ∀ p, p ∈ tree ↔ p ∈ project.paths) {c : Nat × TreeOp} (free : Free top ⟨some project, vaults⟩ c.2) :
    Follows home top ⟨some project, vaults⟩ tree c ∨
      (Site.call ⟨some project, vaults⟩ c).1 = .error (.owner .unfinished) ∧
      ∃ p ∈ project.paths, (c.2 = .discover p ∨ ∃ recursive, c.2 = .remove p recursive) ∧
        Owner.discoverFrom c.1 project.owner vaults p (keyOf p) = .error .unfinished := by
  have still : Matches home top ⟨some project, vaults⟩ tree := .inl ⟨project, keyOf, rfl, inStep, same⟩
  have unknown : ∀ {p}, p ∉ tree → project.owner.knows p = false := by
    intro p new
    rw [← Bool.not_eq_true]
    exact fun knows => new ((same p).mpr (inStep.knows.mp knows))
  obtain ⟨nodes, op⟩ := c
  cases op with
  | add p =>
    cases parent : p.parent with
    | none =>
      refine .inl (.refused .isProject _ ?_ (by simp) ?_ still)
      · simp [Site.call, Owner.envAdd, envAddKeys, parent]
      · rintro ⟨_, q, _, above⟩
        rw [parent] at above
        cases above
    | some q =>
      by_cases parentKnown : q ∈ tree
      · by_cases new : p ∈ tree
        · refine .inl (.refused .envExists _ ?_ (by simp) (fun allowed => allowed.1 new) still)
          have knowsParent : project.owner.knows q = true := inStep.knows.mpr ((same q).mp parentKnown)
          have knows : project.owner.knows p = true := inStep.knows.mpr ((same p).mp new)
          simp [Site.call, Owner.envAdd, envAddKeys, parent, knowsParent, knows]
        · have parentListed := (same q).mp parentKnown
          have unlisted : p ∉ project.paths := fun member => new ((same p).mpr member)
          obtain ⟨record, vaults', _, runs, there, homedNew, added⟩ := inStep.envAdd derived parent parentListed unlisted
          refine .inl (.allowed ⟨some (project.note p (NodeKeys.vaultId (NodeKeys.child (keyOf q) p.last))), vaults'⟩
            ?_ ⟨new, q, parentKnown, parent⟩ ?_ ?_)
          · simp only [Site.call, runs]
          · refine .inl ⟨_, _, rfl, inStep.added parent parentListed unlisted homedNew there added, fun x => ?_⟩
            simp [PathTree.grown, Project.note, same]
          · intro v outside
            refine added.kept v (inStep.side outside parentListed) ?_
            rintro rfl
            rw [homedNew, EnvPath.startsWith_trans (EnvPath.startsWith_child (EnvPath.child_parent parent))
              (inStep.known.under q parentListed)] at outside
            cases outside
      · refine .inl (.refused (.owner .unknownPath) _ ?_ (by simp) ?_ still)
        · simp [Site.call, Owner.envAdd, envAddKeys, parent, unknown parentKnown]
        · rintro ⟨_, other, member, above⟩
          obtain rfl := Option.some.inj (parent.symm.trans above)
          exact parentKnown member
  | remove p recursive =>
    by_cases known : p ∈ tree
    · have member := (same p).mp known
      obtain ⟨cut, runs⟩ | ⟨stops, ⟨x, xKnown, strict, under⟩, below, after, runs, inStepAfter, relisted⟩ |
        ⟨goes, removal, left, vaults', runs, removes⟩ :=
        inStep.envRemove member (free project rfl) nodes recursive
      · refine .inr ⟨?_, p, member, .inr ⟨recursive, rfl⟩, cut⟩
        simp only [Site.call, runs]
        rfl
      · refine .inl (.refused (.hasChildren below) (some after) ?_ (by simp) ?_
          (.inl ⟨after, keyOf, rfl, inStepAfter, fun y => (same y).trans (relisted y).symm⟩))
        · simp only [Site.call, runs]
          rfl
        · rintro ⟨_, whole | alone⟩
          · rw [stops] at whole
            cases whole
          · exact strict (alone x ((same x).mpr xKnown) under)
      · refine .inl (.allowed ⟨left, vaults'⟩ ?_ ⟨known, ?_⟩ ?_ removes.elsewhere)
        · simp only [Site.call, runs]
          rfl
        · exact goes.imp_right fun alone y inTree => alone y ((same y).mp inTree)
        · by_cases here : p = top
          · refine .inr ⟨?_, removes.all here⟩
            rintro y ⟨inTree, outside⟩
            rw [here, inStep.known.under y ((same y).mp inTree)] at outside
            cases outside
          · obtain ⟨after, rfl, inStepAfter, remaining⟩ := removes.rest here
            refine .inl ⟨after, keyOf, rfl, inStepAfter, fun y => ?_⟩
            change y ∈ tree ∧ _ ↔ _
            rw [remaining, same]
    · refine .inl (.refused (.owner .unknownPath) _ ?_ (by simp) (fun allowed => known allowed.1) still)
      simp [Site.call, Owner.envRemove, unknown known, Except.map]
  | discover p =>
    by_cases known : p ∈ tree
    · have member := (same p).mp known
      have knows : project.owner.knows p = true := inStep.knows.mpr member
      obtain ⟨list, chains, ends⟩ := (inStep.reaches member).chain
      have opens : discover nodes project.owner vaults p = Owner.discoverFrom nodes project.owner vaults p (keyOf p) := by
        rw [discover, if_pos knows, chains]
        change (chainEnd list >>= _) = _
        rw [ends]
        rfl
      obtain cut | ⟨walk, found, sameVaults, _⟩ := (inStep.discoverFrom member).2 nodes
      · refine .inr ⟨?_, p, member, .inl rfl, cut⟩
        simp only [Site.call, envDiscover, opens, cut]
        rfl
      · refine .inl (.allowed ⟨some (project.rediscovered project.owner walk), vaults⟩ ?_ known ?_ fun _ _ => rfl)
        · simp only [Site.call, envDiscover, opens, found, sameVaults]
          rfl
        · have listed : ∀ x, x ∈ (project.rediscovered project.owner walk).paths ↔ x ∈ project.paths := by
            intro x
            rw [Project.rediscovered, List.mem_filter, List.mem_dedup, List.mem_append, inStep.knows]
            exact ⟨And.right, fun known => ⟨.inl known, known⟩⟩
          exact .inl ⟨_, keyOf, rfl, inStep.relist listed, fun x => (same x).trans (listed x).symm⟩
    · refine .inl (.refused (.owner .unknownPath) _ ?_ (by simp) known still)
      simp [Site.call, envDiscover, discover, unknown known, Except.map]

/-- A call does what the tree has it do. -/
theorem Matches.follows
    (derived : ∀ (k : κ) seg p, (home (NodeKeys.vaultId k)).child seg = some p → home (NodeKeys.vaultId (NodeKeys.child k seg)) = p)
    (matched : Matches home top site tree) {c : Nat × TreeOp} (smooth : Smooth top site c) : Follows home top site tree c := by
  obtain ⟨project, keyOf, there, inStep, same⟩ | ⟨none, ended⟩ := matched
  · obtain ⟨_, vaults⟩ := site
    subst there
    exact (inStep.follows_or_cut derived same smooth.1).resolve_right fun cut => smooth.2 cut.1
  · exact ended.follows none c

/-! ## Runs -/

/-- The run rule: every call of a run does what the tree it meets has it do. -/
theorem Matches.run
    (derived : ∀ (k : κ) seg p, (home (NodeKeys.vaultId k)).child seg = some p → home (NodeKeys.vaultId (NodeKeys.child k seg)) = p)
    (matched : Matches home top site tree) {calls : List (Nat × TreeOp)}
    (smooth : Machine.Throughout Site.step (Smooth top) site calls) :
    Matches home top (Machine.run Site.step site calls) (Machine.run PathTree.step tree (calls.map Prod.snd)) ∧
      ∀ v, (home v).startsWith top = false → (Machine.run Site.step site calls).vaults v = site.vaults v := by
  induction calls generalizing site tree with
  | nil => exact ⟨matched, fun _ _ => rfl⟩
  | cons c rest inductionHypothesis =>
    have follows := matched.follows derived smooth.1
    obtain ⟨later, elsewhere⟩ := inductionHypothesis follows.matched smooth.2
    exact ⟨later, fun v outside => (elsewhere v outside).trans (follows.elsewhere v outside)⟩

/-- In step with the server, walks of any call end if they are followed far enough. -/
theorem InStep.ends
    (derived : ∀ (k : κ) seg p, (home (NodeKeys.vaultId k)).child seg = some p → home (NodeKeys.vaultId (NodeKeys.child k seg)) = p)
    {project : Project κ ν} {vaults : Vaults κ ν} {keyOf : EnvPath → κ} (inStep : InStep home project vaults top keyOf)
    (op : TreeOp) (free : Free top ⟨some project, vaults⟩ op) :
    ∃ bound, ∀ nodes, bound ≤ nodes → (Site.call ⟨some project, vaults⟩ (nodes, op)).1 ≠ .error (.owner .unfinished) := by
  have enough : ∀ p, ∃ bound, p ∈ project.paths → ∀ nodes, bound ≤ nodes →
      Owner.discoverFrom nodes project.owner vaults p (keyOf p) ≠ .error .unfinished := by
    intro p
    by_cases member : p ∈ project.paths
    · obtain ⟨bound, suffices_⟩ := (inStep.discoverFrom member).1
      exact ⟨bound, fun _ => suffices_⟩
    · exact ⟨0, fun known => absurd known member⟩
  have same : ∀ p, p ∈ ({p | p ∈ project.paths} : Set EnvPath) ↔ p ∈ project.paths := fun _ => Iff.rfl
  cases op with
  | add p =>
    refine ⟨0, fun nodes _ => ?_⟩
    obtain follows | ⟨_, _, _, impossible | ⟨_, impossible⟩, _⟩ := inStep.follows_or_cut derived same (c := (nodes, .add p)) free
    · exact follows.ends
    · cases impossible
    · cases impossible
  | remove p recursive =>
    obtain ⟨bound, suffices_⟩ := enough p
    refine ⟨bound, fun nodes long => ?_⟩
    obtain follows | ⟨_, q, known, impossible | ⟨_, isRemove⟩, cut⟩ :=
      inStep.follows_or_cut derived same (c := (nodes, .remove p recursive)) free
    · exact follows.ends
    · cases impossible
    · cases isRemove
      exact absurd cut (suffices_ known nodes long)
  | discover p =>
    obtain ⟨bound, suffices_⟩ := enough p
    refine ⟨bound, fun nodes long => ?_⟩
    obtain follows | ⟨_, q, known, isDiscover | ⟨_, impossible⟩, cut⟩ :=
      inStep.follows_or_cut derived same (c := (nodes, .discover p)) free
    · exact follows.ends
    · cases isDiscover
      exact absurd cut (suffices_ known nodes long)
    · cases impossible

/-- What the owner of a project has right after creating it. -/
def Project.initial (server : String) (top : EnvPath) (key : κ) : Project κ ν where
  paths := [top]
  owner :=
    { server
      held := [top]
      tree := Function.update (fun _ => none) top (some ⟨NodeKeys.vaultId key, false⟩)
      keys := Function.update (fun _ => none) top (some key) }

omit [DecidableEq ν] in
theorem Project.initial_tree (server : String) (key : κ) (p : EnvPath) :
    ((Project.initial server top key : Project κ ν).owner.tree p) =
      if p = top then some ⟨NodeKeys.vaultId key, false⟩ else none := by
  simp only [Project.initial, Function.update_apply]

omit [DecidableEq ν] in
theorem Project.initial_keys (server : String) (key : κ) (p : EnvPath) :
    ((Project.initial server top key : Project κ ν).owner.keys p) = if p = top then some key else none := by
  simp only [Project.initial, Function.update_apply]

/-- A project that is created is in step with the server. -/
theorem created_matches {vaults : Vaults κ ν} (server : String) {key : κ} (homed : home (NodeKeys.vaultId key) = top)
    (fresh : ∀ v, (home v).startsWith top = true → vaults v = none) :
    ∃ vaults', confirmKitStored none (fun _ => none) vaults top server key =
        (.ok (), some (Project.initial server top key), vaults') ∧
      Matches home top ⟨some (Project.initial server top key), vaults'⟩ {p | p = top} ∧
      ∀ v, (home v).startsWith top = false → vaults' v = vaults v := by
  have unborn : vaults (NodeKeys.vaultId key) = none := fresh _ (by rw [homed]; exact top.startsWith_refl)
  have created : Vaults.create vaults (NodeKeys.vaultId key) = Function.update vaults (NodeKeys.vaultId key) (some .empty) := by
    rw [Vaults.create, unborn]
    rfl
  have only : ∀ {p}, p ∈ (Project.initial server top key : Project κ ν).paths → p = top := List.mem_singleton.mp
  have empty : ∀ record ∈ Vaults.create vaults (NodeKeys.vaultId key) (NodeKeys.vaultId key), record = .empty := by
    intro record there
    rw [created, Function.update_self] at there
    exact (Option.some.inj there).symm
  refine ⟨Vaults.create vaults (NodeKeys.vaultId key), ?_,
    .inl ⟨Project.initial server top key, fun _ => key, rfl, ?_, fun p => List.mem_singleton.symm⟩, ?_⟩
  · simp only [confirmKitStored, unborn]
    rfl
  rotate_left
  · intro v outside
    rw [created]
    refine Function.update_of_ne ?_ _ _
    rintro rfl
    rw [homed, top.startsWith_refl] at outside
    cases outside
  constructor
  case known =>
    constructor
    case listed =>
      intro p
      rw [Project.initial_tree]
      by_cases here : p = top <;> simp [Project.initial, here]
    case root => exact List.mem_singleton_self _
    case under =>
      intro p member
      rw [only member]
      exact top.startsWith_refl
    case closed => exact fun p member strict => absurd (only member) strict
    case recorded =>
      intro p member
      rw [Project.initial_tree, if_pos (only member)]
      rfl
    case derived => exact fun p member strict => absurd (only member) strict
    case apart => exact fun p member q other _ => (only member).trans (only other).symm
    case topmost => exact List.mem_singleton_self _
    case held =>
      intro h held
      obtain rfl : h = top := List.mem_singleton.mp held
      exact ⟨h.startsWith_refl, by rw [Project.initial_keys, if_pos rfl]⟩
    case stored =>
      intro p member k isStored
      rw [Project.initial_keys, if_pos (only member)] at isStored
      exact (Option.some.inj isStored).symm
    case lists => exact fun p member strict => absurd (only member) strict
    case leads =>
      intro q member record there e listed
      rw [empty record there] at listed
      cases listed
  case homed =>
    intro p member
    rw [only member, homed]
  case there =>
    intro p member
    change Vaults.create vaults (NodeKeys.vaultId key) (NodeKeys.vaultId key) ≠ none
    rw [created, Function.update_self]
    exact Option.some_ne_none _
  case only =>
    intro v present under
    refine ⟨top, List.mem_singleton_self _, by_contra fun other => present ?_⟩
    change Vaults.create vaults (NodeKeys.vaultId key) v = none
    rw [created, Function.update_of_ne other]
    exact fresh v under
  case opens =>
    intro q member record there e listed
    rw [empty record there] at listed
    cases listed
  case holds => exact fun h held => held
  case once => exact List.nodup_singleton _
  case stores =>
    intro p isStored
    rw [Project.initial_keys] at isStored
    by_cases here : p = top
    · exact List.mem_singleton.mpr here
    · exact absurd (if_neg here) isStored

/-! ## From the creation of a project on -/

theorem removeNodes_held {gone : List EnvPath} : ∀ {owner : Local κ ν} {vaults : Vaults κ ν} {h : EnvPath},
    h ∈ (removeNodes owner vaults gone).2.1.held → h ∈ owner.held := by
  induction gone with
  | nil => exact id
  | cons node rest inductionHypothesis =>
    intro owner vaults h held
    rw [removeNodes] at held
    split at held
    · exact held
    · exact List.mem_of_mem_erase (inductionHypothesis held)

theorem delist_held {project after : Project κ ν} {vaults : Vaults κ ν} {keys : List (EnvPath × κ)} {path : EnvPath}
    (left : (delist project vaults keys path).2.1 = some after) : after = project := by
  unfold delist at left
  repeat' split at left
  all_goals cases left
  all_goals rfl

theorem discover_held {nodes : Nat} {owner after : Local κ ν} {vaults : Vaults κ ν} {path : EnvPath} {walk : Walk κ ν}
    {ended : Except OwnerError κ} (found : ended.bind (Owner.discoverFrom nodes owner vaults path) = .ok (after, walk)) :
    after.held = owner.held := by
  cases ended with
  | error failure => cases found
  | ok key => rw [(discoverFrom_ok found).1]

theorem envAdd_held (project : Project κ ν) (vaults : Vaults κ ν) (path : EnvPath) :
    (Owner.envAdd project vaults path).2.1.owner.held = project.owner.held := by
  unfold Owner.envAdd
  split
  · rfl
  dsimp only
  split <;> rfl

theorem envRemove_held {nodes : Nat} {project after : Project κ ν} {vaults : Vaults κ ν} {path : EnvPath} {recursive : Bool}
    (left : (Owner.envRemove nodes project vaults path recursive).2.1 = some after) :
    ∀ h ∈ after.owner.held, h ∈ project.owner.held := by
  intro h held
  unfold Owner.envRemove at left
  split at left
  · cases left
    exact held
  split at left
  · cases left
    exact held
  split at left
  · cases left
    exact held
  rename_i walked
  rw [← discover_held walked]
  dsimp only at left
  split at left
  · cases left
    exact held
  split at left
  · rename_i removes
    cases left
    have kept := congrArg (fun r => r.2.1.held) removes
    exact removeNodes_held (kept ▸ held)
  · rename_i removes
    rw [delist_held left] at held
    have kept := congrArg (fun r => r.2.1.held) removes
    exact removeNodes_held (kept ▸ held)

theorem envDiscover_held (nodes : Nat) (project : Project κ ν) (vaults : Vaults κ ν) (path : EnvPath) :
    (envDiscover nodes project vaults path).2.1.owner.held = project.owner.held := by
  unfold envDiscover
  split
  · rfl
  rename_i walked
  unfold discover at walked
  split at walked
  · cases chains : chain project.owner vaults path with
    | error failure =>
      rw [chains] at walked
      cases walked
    | ok keys =>
      rw [chains] at walked
      exact discover_held walked
  · cases walked

/-- No call makes its owner hold more. -/
theorem Site.step_held {site : Site κ ν} {c : Nat × TreeOp} {after : Project κ ν} (left : (site.step c).project = some after) :
    ∃ project, site.project = some project ∧ ∀ h ∈ after.owner.held, h ∈ project.owner.held := by
  obtain ⟨project, vaults⟩ := site
  obtain ⟨nodes, op⟩ := c
  cases project with
  | none => cases op <;> cases left
  | some project =>
    refine ⟨project, rfl, fun h held => ?_⟩
    cases op with
    | add path =>
      obtain rfl : (Owner.envAdd project vaults path).2.1 = after := Option.some.inj left
      rwa [envAdd_held] at held
    | remove path recursive => exact envRemove_held left h held
    | discover path =>
      obtain rfl : (envDiscover nodes project vaults path).2.1 = after := Option.some.inj left
      rwa [envDiscover_held] at held

omit [NodeKeys κ ν] [DecidableEq ν] in
/-- A project of which only the topmost node is held has no other that is. -/
theorem free_of_only {site : Site κ ν} (only : ∀ project ∈ site.project, ∀ h ∈ project.owner.held, h = top) (op : TreeOp) :
    Free top site op := by
  cases op with
  | remove path recursive => exact fun project there held => only project there path held
  | add path => exact trivial
  | discover path => exact trivial

/-- Where only the topmost node is held, so it is after any call. -/
theorem Site.step_only {site : Site κ ν} (only : ∀ project ∈ site.project, ∀ h ∈ project.owner.held, h = top)
    (c : Nat × TreeOp) : ∀ project ∈ (site.step c).project, ∀ h ∈ project.owner.held, h = top := by
  intro after left h held
  obtain ⟨project, there, kept⟩ := Site.step_held left
  exact only project there h (kept h held)

/-- For every list of calls there are walks long enough for all of them to finish. -/
theorem Matches.finishing
    (derived : ∀ (k : κ) seg p, (home (NodeKeys.vaultId k)).child seg = some p → home (NodeKeys.vaultId (NodeKeys.child k seg)) = p)
    (matched : Matches home top site tree) (only : ∀ project ∈ site.project, ∀ h ∈ project.owner.held, h = top)
    (ops : List TreeOp) : ∃ calls, calls.map Prod.snd = ops ∧ Machine.Throughout Site.step Finishes site calls := by
  induction ops generalizing site tree with
  | nil => exact ⟨[], rfl, trivial⟩
  | cons op rest inductionHypothesis =>
    have enough : ∃ nodes, Finishes site (nodes, op) := by
      obtain ⟨project, keyOf, there, inStep, same⟩ | ⟨none, ended⟩ := matched
      · obtain ⟨_, vaults⟩ := site
        subst there
        obtain ⟨bound, ends⟩ := inStep.ends derived op (free_of_only only op)
        exact ⟨bound, ends bound bound.le_refl⟩
      · exact ⟨0, (ended.follows none (0, op)).ends⟩
    obtain ⟨nodes, finishes⟩ := enough
    have follows := matched.follows derived (c := (nodes, op)) ⟨free_of_only only op, finishes⟩
    obtain ⟨calls, same, throughout⟩ := inductionHypothesis follows.matched (Site.step_only only (nodes, op))
    exact ⟨(nodes, op) :: calls, by rw [List.map_cons, same], finishes, throughout⟩

/-- For every run of calls from the creation of a project on: each call succeeds exactly when the
tree of paths allows it, after the run the owner's state and the server are as the tree has them,
and the vaults of other projects are as they were. The walks of every list of calls finish if
they are followed far enough. -/
theorem created_refines_tree (vaults : Vaults κ ν) (server : String) (key : κ)
    (derived : ∀ (k : κ) seg p, (home (NodeKeys.vaultId k)).child seg = some p → home (NodeKeys.vaultId (NodeKeys.child k seg)) = p)
    (homed : home (NodeKeys.vaultId key) = top) (fresh : ∀ v, (home v).startsWith top = true → vaults v = none) :
    ∃ start : Site κ ν, confirmKitStored none (fun _ => none) vaults top server key = (.ok (), start.project, start.vaults) ∧
      (∀ ops, ∃ calls, calls.map Prod.snd = ops ∧ Machine.Throughout Site.step Finishes start calls) ∧
      ∀ calls, Machine.Throughout Site.step Finishes start calls →
        (∀ before c after, calls = before ++ c :: after →
          (((Machine.run Site.step start before).call c).1 = .ok () ↔
            PathTree.allows (Machine.run PathTree.step {p | p = top} (before.map Prod.snd)) c.2)) ∧
        Mirrors home top (Machine.run Site.step start calls) (Machine.run PathTree.step {p | p = top} (calls.map Prod.snd)) ∧
        ∀ v, (home v).startsWith top = false → (Machine.run Site.step start calls).vaults v = vaults v := by
  obtain ⟨vaults', creates, matched, kept⟩ := created_matches server homed fresh
  have only : ∀ project ∈ (⟨some (Project.initial server top key), vaults'⟩ : Site κ ν).project,
      ∀ h ∈ project.owner.held, h = top := by
    intro project there h held
    obtain rfl := Option.some.inj there
    exact List.mem_singleton.mp held
  refine ⟨⟨some (Project.initial server top key), vaults'⟩, creates, matched.finishing derived only, ?_⟩
  intro calls finishes
  have smooth : Machine.Throughout Site.step (Smooth top) ⟨some (Project.initial server top key), vaults'⟩ calls :=
    (finishes.strengthen only fun site c only _ => Site.step_only only c).mono
      fun site c held => ⟨free_of_only held.1 c.2, held.2⟩
  obtain ⟨ends, elsewhere⟩ := matched.run derived smooth
  refine ⟨?_, ends.mirrors, fun v outside => (elsewhere v outside).trans (kept v outside)⟩
  rintro before c after rfl
  obtain ⟨first, here, _⟩ := smooth.split
  exact ((matched.run derived first).1.follows derived here).succeeds

end

/-- A project on a server that has no vaults yet. -/
theorem created_refines_tree_acme : ∃ start : Site PlainKey PlainKey,
    confirmKitStored none (fun _ => none) (fun _ => none) acme "vault.example" ⟨acme, 0⟩ = (.ok (), start.project, start.vaults) ∧
      ∃ calls, calls.map Prod.snd = [.add acmeProd, .remove acme false, .remove acme true] ∧
        Mirrors PlainKey.node acme (Machine.run Site.step start calls)
          (Machine.run PathTree.step {p | p = acme} [.add acmeProd, .remove acme false, .remove acme true]) := by
  obtain ⟨start, creates, finishing, refines⟩ :=
    created_refines_tree (fun _ => none) "vault.example" (⟨acme, 0⟩ : PlainKey) plain_derived (rfl : _ = acme) fun _ _ => rfl
  obtain ⟨calls, same, finishes⟩ := finishing [.add acmeProd, .remove acme false, .remove acme true]
  refine ⟨start, creates, calls, same, ?_⟩
  rw [← same]
  exact (refines calls finishes).2.1

end GalataVault.Owner
