import GalataVault.Library.Machine
import GalataVault.Owner.Environments

/-!
# A project is a tree of paths

A project's single owner adds and removes environments, and rediscovers. Each call succeeds
exactly when the tree of known paths allows it, and does to the server and to the local
state what it does to the tree: a path is in the tree if and only if the owner knows it, if
and only if its vault is there, and its key is found along its chain.
-/

namespace GalataVault.Owner

variable {κ ν : Type} [NodeKeys κ ν] [DecidableEq ν]

/-! ## Additions -/

section

variable {home : ν → EnvPath} {project : Project κ ν} {vaults : Vaults κ ν} {top : EnvPath} {keyOf : EnvPath → κ}

omit [DecidableEq ν] in
/-- In step, a record lists no child that is not known. -/
theorem InStep.unlisted (inStep : InStep home project vaults top keyOf) {p q : EnvPath} (above : p.parent = some q)
    (parentKnown : q ∈ project.paths) (new : p ∉ project.paths) {record : ChildrenRecord κ}
    (there : vaults (NodeKeys.vaultId (keyOf q)) = some record) : record.get p.last = none := by
  cases found : record.get p.last with
  | none => rfl
  | some e =>
    have entry := ChildrenRecord.mem_of_get found
    have made := EnvPath.child_parent above
    rw [← ChildrenRecord.get_seg found] at made
    obtain ⟨k, key⟩ := Option.ne_none_iff_exists'.mp (inStep.opens q parentKnown record there e entry)
    exact absurd (inStep.known.leads q parentKnown record there e entry p made k key).1 new

omit [DecidableEq ν] in
/-- In step, a vault that would be a new node's is not there. -/
theorem InStep.unborn (inStep : InStep home project vaults top keyOf) {p : EnvPath} (under : p.startsWith top = true)
    (new : p ∉ project.paths) {v : ν} (homed : home v = p) : vaults v = none := by
  by_contra there
  obtain ⟨x, member, rfl⟩ := inStep.only v there (homed ▸ under)
  rw [inStep.homed x member] at homed
  exact new (homed ▸ member)

/-- The keys of the nodes once one is added. -/
def keyAdded (keyOf : EnvPath → κ) (p : EnvPath) (key : κ) : EnvPath → κ := Function.update keyOf p key

/-- The vaults once a node is added: its own, empty, and listed in its parent's record. -/
structure Added (vaults : Vaults κ ν) (parentVault vault : ν) (record : ChildrenRecord κ) (seg : String) (vaults' : Vaults κ ν) :
    Prop where
  parent : vaults' parentVault = some (record.insertMissing ⟨seg, .derived⟩)
  made : vaults' vault = some .empty
  kept : ∀ v, v ≠ parentVault → v ≠ vault → vaults' v = vaults v

/-- In step with the server before an addition, in step after it. -/
theorem InStep.added (inStep : InStep home project vaults top keyOf) {p q : EnvPath} (above : p.parent = some q)
    (parentKnown : q ∈ project.paths) (new : p ∉ project.paths)
    (homedNew : home (NodeKeys.vaultId (NodeKeys.child (keyOf q) p.last)) = p) {record : ChildrenRecord κ}
    (there : vaults (NodeKeys.vaultId (keyOf q)) = some record) {vaults' : Vaults κ ν}
    (added : Added vaults (NodeKeys.vaultId (keyOf q)) (NodeKeys.vaultId (NodeKeys.child (keyOf q) p.last)) record p.last vaults') :
    InStep home (project.note p (NodeKeys.vaultId (NodeKeys.child (keyOf q) p.last))) vaults' top
      (keyAdded keyOf p (NodeKeys.child (keyOf q) p.last)) := by
  have known := inStep.known
  have made := EnvPath.child_parent above
  have parentUnder := known.under q parentKnown
  have under := EnvPath.startsWith_trans (EnvPath.startsWith_child made) parentUnder
  have other : ∀ {x}, x ∈ project.paths → x ≠ p := by
    rintro x member rfl
    exact new member
  have old : ∀ {x}, x ∈ project.paths → keyAdded keyOf p (NodeKeys.child (keyOf q) p.last) x = keyOf x :=
    fun member => Function.update_of_ne (other member) ..
  have own : keyAdded keyOf p (NodeKeys.child (keyOf q) p.last) p = NodeKeys.child (keyOf q) p.last := Function.update_self ..
  have either : ∀ {x}, x ∈ (project.note p (NodeKeys.vaultId (NodeKeys.child (keyOf q) p.last))).paths → x ∈ project.paths ∨ x = p := by
    intro x member
    simpa [Project.note] using member
  have homed : ∀ x ∈ (project.note p (NodeKeys.vaultId (NodeKeys.child (keyOf q) p.last))).paths,
      home (NodeKeys.vaultId (keyAdded keyOf p (NodeKeys.child (keyOf q) p.last) x)) = x := by
    intro x member
    obtain member | rfl := either member
    · rw [old member]
      exact inStep.homed x member
    · rw [own]
      exact homedNew
  have node : ∀ {x}, x ∈ project.paths →
      (project.note p (NodeKeys.vaultId (NodeKeys.child (keyOf q) p.last))).owner.tree x = project.owner.tree x :=
    fun member => Function.update_of_ne (other member) ..
  have nodeNew : (project.note p (NodeKeys.vaultId (NodeKeys.child (keyOf q) p.last))).owner.tree p =
      some ⟨NodeKeys.vaultId (NodeKeys.child (keyOf q) p.last), false⟩ := Function.update_self ..
  have elsewhere : ∀ {x}, x ∈ project.paths → x ≠ q → vaults' (NodeKeys.vaultId (keyOf x)) = vaults (NodeKeys.vaultId (keyOf x)) := by
    intro x member strict
    refine added.kept _ (fun same => strict (known.apart x member q parentKnown same)) fun same => other member ?_
    have homes := congrArg home same
    rwa [inStep.homed x member, homedNew] at homes
  have get : ∀ {seg e}, record.get seg = some e → (record.insertMissing ⟨p.last, .derived⟩).get seg = some e := by
    intro seg e found
    rw [ChildrenRecord.get_insertMissing, found]
    rfl
  have entries : ∀ {e}, e ∈ (record.insertMissing ⟨p.last, .derived⟩).children → e ∈ record.children ∨ e = ⟨p.last, .derived⟩ := by
    intro e member
    have found := ChildrenRecord.get_of_mem member
    rw [ChildrenRecord.get_insertMissing, Option.or_eq_some_iff] at found
    obtain found | ⟨_, found⟩ := found
    · exact .inl (ChildrenRecord.mem_of_get found)
    · split at found
      · exact .inr (Option.some.inj found).symm
      · cases found
  constructor
  case known =>
    constructor
    case listed =>
      intro x
      rw [show x ∈ (project.note p (NodeKeys.vaultId (NodeKeys.child (keyOf q) p.last))).paths ↔ x ∈ project.paths ∨ x = p by
        simp [Project.note]]
      by_cases here : x = p
      · subst here
        rw [nodeNew]
        simp
      · rw [show (project.note p (NodeKeys.vaultId (NodeKeys.child (keyOf q) p.last))).owner.tree x = project.owner.tree x from
          Function.update_of_ne here .., ← known.listed x]
        simp [here]
    case root => exact List.mem_append_left _ known.root
    case under =>
      intro x member
      obtain member | rfl := either member
      · exact known.under x member
      · exact under
    case closed =>
      intro x member strict y parent
      obtain member | rfl := either member
      · exact List.mem_append_left _ (known.closed x member strict y parent)
      · obtain rfl := Option.some.inj (above.symm.trans parent)
        exact List.mem_append_left _ parentKnown
    case recorded =>
      intro x member
      obtain member | rfl := either member
      · rw [node member, old member]
        exact known.recorded x member
      · rw [nodeNew, own]
        rfl
    case derived =>
      intro x member strict flag y parent
      obtain member | rfl := either member
      · rw [node member] at flag
        rw [old member, old (known.closed x member strict y parent)]
        exact known.derived x member strict flag y parent
      · obtain rfl := Option.some.inj (above.symm.trans parent)
        rw [own, old parentKnown]
    case apart =>
      intro x member y member' same
      rw [← homed x member, same, homed y member']
    case topmost => exact known.topmost
    case held =>
      intro h held
      rw [old (inStep.holds h held)]
      exact known.held h held
    case stored =>
      intro x member k stored
      obtain member | rfl := either member
      · rw [old member]
        exact known.stored x member k stored
      · have held := inStep.stores x (fun none => by rw [show project.owner.keys x = some k from stored] at none; cases none)
        exact absurd (inStep.holds x held) new
    case lists =>
      intro x member strict y parent after there'
      obtain earlier | rfl := either member
      · have parentToo := known.closed x earlier strict y parent
        rw [node earlier, old earlier, old parentToo]
        rw [old parentToo] at there'
        by_cases here : y = q
        · subst here
          obtain rfl := Option.some.inj (added.parent.symm.trans there')
          obtain ⟨e, listed, rest⟩ := known.lists x earlier strict y parent record there
          exact ⟨e, get listed, rest⟩
        · exact known.lists x earlier strict y parent after ((elsewhere parentToo here).symm.trans there')
      · obtain rfl := Option.some.inj (above.symm.trans parent)
        rw [old parentKnown] at there'
        obtain rfl := Option.some.inj (added.parent.symm.trans there')
        refine ⟨⟨x.last, .derived⟩, ?_, ?_, ?_⟩
        · rw [Option.mem_def, ChildrenRecord.get_insertMissing, inStep.unlisted above parentKnown new there]
          simp
        · rw [nodeNew]
          rfl
        · rw [own, old parentKnown]
          rfl
    case leads =>
      intro y member after there' e listed x made' k key
      obtain member | rfl := either member
      · rw [old member] at there' key
        have from_known : ∀ {r : ChildrenRecord κ}, vaults (NodeKeys.vaultId (keyOf y)) = some r → e ∈ r.children →
            x ∈ (project.note p (NodeKeys.vaultId (NodeKeys.child (keyOf q) p.last))).paths ∧
              k = keyAdded keyOf p (NodeKeys.child (keyOf q) p.last) x := by
          intro r opens entry
          obtain ⟨childKnown, rfl⟩ := known.leads y member r opens e entry x made' k key
          exact ⟨List.mem_append_left _ childKnown, (old childKnown).symm⟩
        by_cases here : y = q
        · subst here
          obtain rfl := Option.some.inj (added.parent.symm.trans there')
          obtain entry | rfl := entries listed
          · exact from_known there entry
          · obtain rfl := Option.some.inj (made.symm.trans made')
            refine ⟨List.mem_append_right _ (List.mem_singleton_self _), ?_⟩
            rw [own]
            exact (Option.some.inj key).symm
        · exact from_known ((elsewhere member here).symm.trans there') listed
      · rw [own, added.made] at there'
        obtain rfl := Option.some.inj there'
        cases listed
  case homed => exact homed
  case there =>
    intro x member
    obtain member | rfl := either member
    · rw [old member]
      by_cases here : x = q
      · rw [here, added.parent]
        exact Option.some_ne_none _
      · rw [elsewhere member here]
        exact inStep.there x member
    · rw [own, added.made]
      exact Option.some_ne_none _
  case only =>
    intro v present beneath
    by_cases isParent : v = NodeKeys.vaultId (keyOf q)
    · exact ⟨q, List.mem_append_left _ parentKnown, by rw [old parentKnown, isParent]⟩
    · by_cases isNew : v = NodeKeys.vaultId (NodeKeys.child (keyOf q) p.last)
      · exact ⟨p, List.mem_append_right _ (List.mem_singleton_self _), by rw [own, isNew]⟩
      · rw [added.kept v isParent isNew] at present
        obtain ⟨x, member, rfl⟩ := inStep.only v present beneath
        exact ⟨x, List.mem_append_left _ member, by rw [old member]⟩
  case opens =>
    intro y member after there' e listed
    obtain earlier | rfl := either member
    · rw [old earlier] at there' ⊢
      by_cases here : y = q
      · subst here
        obtain rfl := Option.some.inj (added.parent.symm.trans there')
        obtain entry | rfl := entries listed
        · exact inStep.opens y earlier record there e entry
        · exact Option.some_ne_none _
      · exact inStep.opens y earlier after ((elsewhere earlier here).symm.trans there') e listed
    · rw [own, Option.mem_def, added.made] at there'
      obtain rfl := Option.some.inj there'
      cases listed
  case holds => exact fun h held => List.mem_append_left _ (inStep.holds h held)
  case once => exact inStep.once
  case stores => exact inStep.stores

/-- In step with the server an environment can be added below any known one. -/
theorem InStep.envAdd (inStep : InStep home project vaults top keyOf)
    (derived : ∀ (k : κ) seg p, (home (NodeKeys.vaultId k)).child seg = some p → home (NodeKeys.vaultId (NodeKeys.child k seg)) = p)
    {p q : EnvPath} (above : p.parent = some q) (parentKnown : q ∈ project.paths) (new : p ∉ project.paths) :
    ∃ record vaults', envAddKeys project vaults p = .ok (keyOf q, NodeKeys.child (keyOf q) p.last) ∧
      envAdd project vaults p = (.ok (), project.note p (NodeKeys.vaultId (NodeKeys.child (keyOf q) p.last)), vaults') ∧
      vaults (NodeKeys.vaultId (keyOf q)) = some record ∧
      home (NodeKeys.vaultId (NodeKeys.child (keyOf q) p.last)) = p ∧
      Added vaults (NodeKeys.vaultId (keyOf q)) (NodeKeys.vaultId (NodeKeys.child (keyOf q) p.last)) record p.last vaults' := by
  have made := EnvPath.child_parent above
  have under := EnvPath.startsWith_trans (EnvPath.startsWith_child made) (inStep.known.under q parentKnown)
  have homedNew : home (NodeKeys.vaultId (NodeKeys.child (keyOf q) p.last)) = p :=
    derived (keyOf q) p.last p (by rw [inStep.homed q parentKnown]; exact made)
  have unborn := inStep.unborn under new homedNew
  obtain ⟨record, there⟩ := Option.ne_none_iff_exists'.mp (inStep.there q parentKnown)
  have apart : NodeKeys.vaultId (keyOf q) ≠ NodeKeys.vaultId (NodeKeys.child (keyOf q) p.last) := by
    intro same
    rw [← same, there] at unborn
    cases unborn
  have keys : envAddKeys project vaults p = .ok (keyOf q, NodeKeys.child (keyOf q) p.last) := by
    have knowsParent : project.owner.knows q = true := inStep.knows.mpr parentKnown
    have unknown : project.owner.knows p = false := by
      rw [← Bool.not_eq_true]
      exact fun knows => new (inStep.knows.mp knows)
    have unlisted := inStep.unlisted above parentKnown new there
    unfold envAddKeys
    simp only [above, knowsParent, unknown, (inStep.reaches parentKnown).chain_bind, there, unlisted]
    rfl
  have created : Vaults.create vaults (NodeKeys.vaultId (NodeKeys.child (keyOf q) p.last)) =
      Function.update vaults (NodeKeys.vaultId (NodeKeys.child (keyOf q) p.last)) (some .empty) := by
    rw [Vaults.create, unborn]
    rfl
  refine ⟨record, Function.update (Function.update vaults (NodeKeys.vaultId (NodeKeys.child (keyOf q) p.last)) (some .empty))
    (NodeKeys.vaultId (keyOf q)) (some (record.insertMissing ⟨p.last, .derived⟩)), keys, ?_, there, homedNew, ?_⟩
  · unfold Owner.envAdd
    simp only [keys, created, listed, Function.update_of_ne apart, there, Option.map_some]
  · constructor
    case parent => exact Function.update_self ..
    case made => rw [Function.update_of_ne (Ne.symm apart), Function.update_self]
    case kept =>
      intro v other another
      rw [Function.update_of_ne other, Function.update_of_ne another]

end

end GalataVault.Owner
