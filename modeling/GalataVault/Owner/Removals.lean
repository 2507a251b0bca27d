import GalataVault.Owner.Additions

/-!
# Removing a subtree

A removal that goes through leaves a project in step with the server, without the subtree:
the nodes are forgotten, their vaults are deleted, and the record above lists the removed
node no more. The removal of the topmost node leaves nothing.
-/

namespace GalataVault.Owner

variable {κ ν : Type} [NodeKeys κ ν] [DecidableEq ν]

section

variable {home : ν → EnvPath} {project : Project κ ν} {vaults : Vaults κ ν} {top : EnvPath} {keyOf : EnvPath → κ}
  {p : EnvPath} {gone : List EnvPath} {after : Local κ ν} {vaults' : Vaults κ ν}

/-- In step with the server before a subtree is removed, in step once it is off its parent's
record. -/
theorem InStep.removed (inStep : InStep home project vaults top keyOf) (strict : p ≠ top) (member : p ∈ project.paths)
    (subtree : ∀ x, x ∈ gone ↔ x ∈ project.paths ∧ x.startsWith p = true)
    (removed : Removed project.owner vaults keyOf gone after vaults') {q : EnvPath} (above : p.parent = some q)
    {record : ChildrenRecord κ} (there : vaults (NodeKeys.vaultId (keyOf q)) = some record) {paths : List EnvPath}
    (left : ∀ x, x ∈ paths ↔ x ∈ project.paths ∧ x ∉ gone) :
    InStep home ⟨paths, after⟩ (Function.update vaults' (NodeKeys.vaultId (keyOf q)) (some (record.remove p.last))) top keyOf := by
  have known := inStep.known
  have made := EnvPath.child_parent above
  have parentKnown := known.closed p member strict q above
  have old : ∀ {x}, x ∈ paths → x ∈ project.paths := fun stays => ((left _).mp stays).1
  have stays : ∀ {x}, x ∈ paths → x ∉ gone := fun stays => ((left _).mp stays).2
  have node : ∀ {x}, x ∈ paths → after.tree x = project.owner.tree x := by
    intro x kept
    rw [removed.tree, if_neg (stays kept)]
  have vault : ∀ {x}, x ∈ paths → vaults' (NodeKeys.vaultId (keyOf x)) = vaults (NodeKeys.vaultId (keyOf x)) := by
    intro x kept
    refine removed.kept _ fun n among same => stays kept ?_
    rwa [known.apart x (old kept) n ((subtree n).mp among).1 same]
  have upper : ∀ {x y}, x ∈ paths → x.parent = some y → x ≠ top → y ∈ paths := by
    intro x y kept parent lower
    have yKnown := known.closed x (old kept) lower y parent
    refine (left y).mpr ⟨yKnown, fun among => stays kept ((subtree x).mpr ⟨old kept, ?_⟩)⟩
    exact EnvPath.startsWith_trans (EnvPath.startsWith_child (EnvPath.child_parent parent)) ((subtree y).mp among).2
  have apart : ∀ {x y}, x ∈ paths → y ∈ project.paths → x ≠ y → NodeKeys.vaultId (keyOf x) ≠ NodeKeys.vaultId (keyOf y) :=
    fun kept yKnown different same => different (known.apart _ (old kept) _ yKnown same)
  have records : ∀ {y}, y ∈ paths → ∀ r,
      Function.update vaults' (NodeKeys.vaultId (keyOf q)) (some (record.remove p.last)) (NodeKeys.vaultId (keyOf y)) = some r →
        (y = q ∧ r = record.remove p.last) ∨ y ≠ q ∧ vaults (NodeKeys.vaultId (keyOf y)) = some r := by
    intro y kept r opens
    by_cases here : y = q
    · subst here
      rw [Function.update_self] at opens
      exact .inl ⟨rfl, (Option.some.inj opens).symm⟩
    · rw [Function.update_of_ne (apart kept parentKnown here), vault kept] at opens
      exact .inr ⟨here, opens⟩
  have outside : top ∉ gone := fun among => strict (EnvPath.startsWith_antisymm (known.under p member) ((subtree top).mp among).2)
  constructor
  case known =>
    constructor
    case listed =>
      intro x
      dsimp only
      rw [left, removed.tree, known.listed x]
      by_cases among : x ∈ gone <;> simp [among]
    case root => exact (left top).mpr ⟨known.root, outside⟩
    case under => exact fun x kept => known.under x (old kept)
    case closed => exact fun x kept lower y parent => upper kept parent lower
    case recorded =>
      intro x kept
      dsimp only
      rw [node kept]
      exact known.recorded x (old kept)
    case derived =>
      intro x kept lower flag
      dsimp only at flag
      rw [node kept] at flag
      exact known.derived x (old kept) lower flag
    case apart => exact fun x kept y kept' => known.apart x (old kept) y (old kept')
    case topmost => exact (removed.held top).mpr ⟨known.topmost, outside⟩
    case held =>
      intro h held
      obtain ⟨heldBefore, unremoved⟩ := (removed.held h).mp held
      dsimp only
      rw [removed.keys, if_neg (fun among => unremoved among.1)]
      exact known.held h heldBefore
    case stored =>
      intro x kept k stored
      dsimp only at stored
      rw [removed.keys, if_neg (fun among => stays kept among.1)] at stored
      exact known.stored x (old kept) k stored
    case lists =>
      intro x kept lower y parent r opens
      dsimp only
      rw [node kept]
      obtain ⟨rfl, rfl⟩ | ⟨_, opens⟩ := records (upper kept parent lower) r opens
      · obtain ⟨e, listed, rest⟩ := known.lists x (old kept) lower y parent record there
        refine ⟨e, ?_, rest⟩
        rw [Option.mem_def, ChildrenRecord.get_remove ?_]
        · exact listed
        · intro same
          have madeToo := EnvPath.child_parent parent
          rw [same, made] at madeToo
          obtain rfl := Option.some.inj madeToo
          exact stays kept ((subtree p).mpr ⟨member, p.startsWith_refl⟩)
      · exact known.lists x (old kept) lower y parent r opens
    case leads =>
      intro y kept r opens e listed x made' k key
      obtain ⟨rfl, rfl⟩ | ⟨different, opens⟩ := records kept r opens
      · obtain ⟨listed, other⟩ := ChildrenRecord.mem_remove.mp listed
        obtain ⟨childKnown, rfl⟩ := known.leads y (old kept) record there e listed x made' k key
        refine ⟨(left x).mpr ⟨childKnown, fun among => ?_⟩, rfl⟩
        obtain same | beneath := EnvPath.startsWith_parent made' ((subtree x).mp among).2
        · rw [same] at made'
          exact other (EnvPath.child_injective made' made).2
        · exact stays kept ((subtree y).mpr ⟨old kept, beneath⟩)
      · obtain ⟨childKnown, rfl⟩ := known.leads y (old kept) r opens e listed x made' k key
        refine ⟨(left x).mpr ⟨childKnown, fun among => ?_⟩, rfl⟩
        obtain same | beneath := EnvPath.startsWith_parent made' ((subtree x).mp among).2
        · rw [same] at made'
          exact different (EnvPath.child_injective made' made).1
        · exact stays kept ((subtree y).mpr ⟨old kept, beneath⟩)
  case homed => exact fun x kept => inStep.homed x (old kept)
  case there =>
    intro x kept
    by_cases here : x = q
    · rw [here, Function.update_self]
      exact Option.some_ne_none _
    · rw [Function.update_of_ne (apart kept parentKnown here), vault kept]
      exact inStep.there x (old kept)
  case only =>
    intro v present beneath
    have parentStays : q ∈ paths := by
      refine (left q).mpr ⟨parentKnown, fun among => ?_⟩
      exact EnvPath.child_ne_root made q.startsWith_refl (EnvPath.startsWith_antisymm (EnvPath.startsWith_child made) ((subtree q).mp among).2)
    by_cases isParent : v = NodeKeys.vaultId (keyOf q)
    · exact ⟨q, parentStays, isParent⟩
    · rw [Function.update_of_ne isParent] at present
      by_cases among : ∃ n ∈ gone, v = NodeKeys.vaultId (keyOf n)
      · obtain ⟨n, inGone, rfl⟩ := among
        exact absurd (removed.deleted n inGone) present
      · rw [removed.kept v fun n inGone same => among ⟨n, inGone, same⟩] at present
        obtain ⟨x, known, rfl⟩ := inStep.only v present beneath
        exact ⟨x, (left x).mpr ⟨known, fun inGone => among ⟨x, inGone, rfl⟩⟩, rfl⟩
  case opens =>
    intro y kept r opens e listed
    obtain ⟨rfl, rfl⟩ | ⟨_, opens⟩ := records kept r opens
    · exact inStep.opens y (old kept) record there e (ChildrenRecord.mem_remove.mp listed).1
    · exact inStep.opens y (old kept) r opens e listed
  case holds =>
    intro h held
    obtain ⟨heldBefore, unremoved⟩ := (removed.held h).mp held
    exact (left h).mpr ⟨inStep.holds h heldBefore, unremoved⟩
  case once => exact removed.once
  case stores =>
    intro x stored
    dsimp only at stored
    rw [removed.keys] at stored
    split at stored
    · exact absurd rfl stored
    · next unremoved =>
      have held := inStep.stores x stored
      exact (removed.held x).mpr ⟨held, fun among => unremoved ⟨among, held⟩⟩

/-! ## The parent's key -/

omit [DecidableEq ν] in
/-- The last two keys of a chain that ends in a child. -/
theorem chainFrom_concat {tree : EnvPath → Option (TreeNode ν)} {here q : EnvPath} {key parentKey k : κ} {segs : List String}
    {seg : String} (descends : descend vaults tree here key segs = .ok (q, parentKey)) (made : q.child seg = some p)
    (found : nextKey vaults tree parentKey seg p = .ok k) :
    ∃ list, chainFrom vaults tree here key (segs ++ [seg]) = .ok list ∧ list.getLast? = some (p, k) ∧
      list.dropLast.getLast? = some (q, parentKey) := by
  induction segs generalizing here key with
  | nil =>
    cases descends
    refine ⟨[(q, parentKey), (p, k)], ?_, rfl, rfl⟩
    rw [List.nil_append, chainFrom, made]
    change (nextKey vaults tree parentKey seg p >>= _) = _
    rw [found]
    rfl
  | cons first rest inductionHypothesis =>
    unfold descend at descends
    split at descends
    · cases descends
    · next child toward =>
      split at descends
      · cases descends
      · next next opens =>
        obtain ⟨list, chains, ends, above⟩ := inductionHypothesis descends
        refine ⟨(here, key) :: list, ?_, ?_, ?_⟩
        · rw [List.cons_append, chainFrom, toward]
          change (nextKey vaults tree key first child >>= fun next => chainFrom vaults tree child next (rest ++ [seg]) >>= _) = _
          rw [opens]
          change (chainFrom vaults tree child next (rest ++ [seg]) >>= _) = _
          rw [chains]
          rfl
        · rw [List.getLast?_cons, ends]
          rfl
        · have some : list ≠ [] := by
            rintro rfl
            cases ends
          rw [List.dropLast_cons_of_ne_nil some, List.getLast?_cons, above]
          rfl

omit [DecidableEq ν] in
/-- The chain of a known node that is not held itself ends in its parent's key and its own. -/
theorem InStep.chain_below (inStep : InStep home project vaults top keyOf) (member : p ∈ project.paths)
    (unheld : p ∉ project.owner.held) {q : EnvPath} (above : p.parent = some q) :
    ∃ list, chain project.owner vaults p = .ok list ∧ chainEnd list = .ok (keyOf p) ∧
      list.dropLast.getLast? = some (q, keyOf q) := by
  have reaches := inStep.reaches member
  have made := EnvPath.child_parent above
  obtain ⟨h, deepest⟩ := heldRootFor_exists reaches.topmost reaches.under
  obtain ⟨held, beyond, _⟩ := heldRootFor_some deepest
  obtain ⟨under, key⟩ := reaches.held h held beyond
  have strictly : q.startsWith h = true := by
    obtain same | beneath := EnvPath.startsWith_parent made beyond
    · exact absurd (same ▸ held) unheld
    · exact beneath
  have parentUnder := EnvPath.startsWith_trans strictly under
  have strict : p ≠ top := EnvPath.child_ne_root made parentUnder
  have whole : q.segments = h.segments ++ q.segments.drop h.depth :=
    (List.prefix_iff_eq_append.mp (EnvPath.startsWith_iff.mp strictly)).symm
  have split : p.segments.drop h.depth = q.segments.drop h.depth ++ [p.last] := by
    rw [EnvPath.child_segments made]
    exact List.drop_append_of_le_length (EnvPath.startsWith_iff.mp strictly).length_le
  have parentKnown := inStep.known.closed p member strict q above
  obtain ⟨list, chains, ends, last⟩ := chainFrom_concat ((inStep.reaches parentKnown).descends under whole) made
    (reaches.next q p above parentUnder p.startsWith_refl)
  refine ⟨list, ?_, ?_, last⟩
  · simp only [chain, deepest, key, split, chains]
  · simp only [chainEnd, ends]

/-! ## The call -/

/-- What is left of a project once its topmost node is removed: no vault, and nothing known. -/
structure Ended (home : ν → EnvPath) (top : EnvPath) (project : Option (Project κ ν)) (vaults : Vaults κ ν) : Prop where
  forgotten : ∀ left ∈ project, ∀ p, left.owner.tree p = none
  deleted : ∀ v, (home v).startsWith top = true → vaults v = none

/-- What a removal that goes through does. -/
structure Removes (home : ν → EnvPath) (top : EnvPath) (keyOf : EnvPath → κ) (project : Project κ ν) (vaults : Vaults κ ν)
    (p : EnvPath) (removal : Removal) (left : Option (Project κ ν)) (vaults' : Vaults κ ν) : Prop where
  deleted : ∀ x, x ∈ removal.deleted ↔ x ∈ project.paths ∧ x.startsWith p = true
  order : removal.deleted.Pairwise fun a b => b.startsWith a = false
  parent : removal.parentNotUpdated = if p = top then top.parent else none
  elsewhere : ∀ v, (home v).startsWith top = false → vaults' v = vaults v
  rest : p ≠ top → ∃ after, left = some after ∧ InStep home after vaults' top keyOf ∧
    ∀ x, x ∈ after.paths ↔ x ∈ project.paths ∧ x.startsWith p = false
  all : p = top → Ended home top left vaults'

omit [DecidableEq ν] in
/-- What is not of the topmost node's subtree is no known node's vault. -/
theorem InStep.side (inStep : InStep home project vaults top keyOf) {v : ν} (outside : (home v).startsWith top = false)
    {x : EnvPath} (member : x ∈ project.paths) : v ≠ NodeKeys.vaultId (keyOf x) := by
  rintro rfl
  rw [inStep.homed x member, inStep.known.under x member] at outside
  cases outside

/-- The nodes of a known subtree are removed, and the record above is told. A node other than the
topmost must not be held itself: its chain begins at it then, and its parent's key is not at
hand. -/
theorem InStep.removes (inStep : InStep home project vaults top keyOf) (member : p ∈ project.paths)
    (free : p ∈ project.owner.held → p = top) {paths : List EnvPath} (same : ∀ x, x ∈ paths ↔ x ∈ project.paths)
    (distinct : paths.Nodup) {list : List (EnvPath × κ)} (chains : chain project.owner vaults p = .ok list) :
    ∃ after vaults' above left vaults'', removeNodes project.owner vaults (descendants paths p ++ [p]) = (.ok (), after, vaults') ∧
      delist ⟨paths.filter after.knows, after⟩ vaults' list p = (.ok above, left, vaults'') ∧
      Removes home top keyOf project vaults p ⟨descendants paths p ++ [p], above⟩ left vaults'' := by
  have known := inStep.known
  have subtree : ∀ x, x ∈ descendants paths p ++ [p] ↔ x ∈ project.paths ∧ x.startsWith p = true := by
    intro x
    rw [List.mem_append, mem_descendants, same, List.mem_singleton]
    constructor
    · rintro (⟨xKnown, _, under⟩ | rfl)
      · exact ⟨xKnown, under⟩
      · exact ⟨member, x.startsWith_refl⟩
    · rintro ⟨xKnown, under⟩
      by_cases here : x = p
      · exact .inr here
      · exact .inl ⟨xKnown, here, under⟩
  have order := descendants_order distinct p
  have homedAbove : ∀ n ∈ descendants paths p ++ [p], ∀ q, q.startsWith top = true →
      n.startsWith q = true → home (NodeKeys.vaultId (keyOf q)) = q :=
    fun n among q under beneath => inStep.homed q (known.above ((subtree n).mp among).1 under beneath)
  obtain ⟨after, vaults', removing, removed⟩ :=
    removeNodes_spec (fun n among => inStep.reaches ((subtree n).mp among).1) order homedAbove inStep.once
  have left : ∀ x, x ∈ paths.filter after.knows ↔ x ∈ project.paths ∧ x ∉ descendants paths p ++ [p] := by
    intro x
    rw [List.mem_filter, same, Local.knows, removed.tree]
    constructor
    · rintro ⟨xKnown, noted⟩
      refine ⟨xKnown, fun among => ?_⟩
      rw [if_pos among] at noted
      cases noted
    · rintro ⟨xKnown, stays⟩
      rw [if_neg stays]
      exact ⟨xKnown, inStep.knows.mpr xKnown⟩
  have elsewhere : ∀ v, (home v).startsWith top = false → vaults' v = vaults v :=
    fun v outside => removed.kept v fun n among => inStep.side outside ((subtree n).mp among).1
  refine ⟨after, vaults', ?_⟩
  by_cases strict : p = top
  · subst strict
    have deleted : ∀ v, (home v).startsWith p = true → vaults' v = none := by
      intro v under
      by_cases among : ∃ n ∈ descendants paths p ++ [p], v = NodeKeys.vaultId (keyOf n)
      · obtain ⟨n, inGone, rfl⟩ := among
        exact removed.deleted n inGone
      · rw [removed.kept v fun n inGone same => among ⟨n, inGone, same⟩]
        by_contra there
        obtain ⟨x, xKnown, rfl⟩ := inStep.only v there under
        exact among ⟨x, (subtree x).mpr ⟨xKnown, known.under x xKnown⟩, rfl⟩
    have forgotten : ∀ x, after.tree x = none := by
      intro x
      rw [removed.tree]
      split
      · rfl
      · next stays =>
        cases noted : project.owner.tree x with
        | none => rfl
        | some node =>
          have xKnown := (known.of_node noted).1
          exact absurd ((subtree x).mpr ⟨xKnown, known.under x xKnown⟩) stays
    cases parent : p.parent with
    | none =>
      refine ⟨none, none, vaults', removing, by simp only [delist, parent], ?_⟩
      constructor
      case deleted => exact subtree
      case order => exact order
      case parent => rw [if_pos rfl, parent]
      case elsewhere => exact elsewhere
      case rest => exact fun other => absurd rfl other
      case all =>
        refine fun _ => ⟨?_, deleted⟩
        rintro _ ⟨⟩
    | some above =>
      obtain rfl := Except.ok.inj ((known.chain_top vaults).symm.trans chains)
      refine ⟨some above, some ⟨paths.filter after.knows, after⟩, vaults', removing, by simp [delist, parent], ?_⟩
      constructor
      case deleted => exact subtree
      case order => exact order
      case parent => rw [if_pos rfl, parent]
      case elsewhere => exact elsewhere
      case rest => exact fun other => absurd rfl other
      case all =>
        refine fun _ => ⟨?_, deleted⟩
        rintro _ ⟨⟩
        exact forgotten
  · obtain ⟨q, above⟩ : ∃ q, p.parent = some q := by
      cases parent : p.parent with
      | some q => exact ⟨q, rfl⟩
      | none =>
        have short : ¬1 < p.segments.length := fun long => by
          rw [EnvPath.parent, dif_pos long] at parent
          cases parent
        have someSegment : 0 < top.segments.length := List.length_pos_of_ne_nil top.nonempty
        have prefixed := EnvPath.startsWith_iff.mp (known.under p member)
        exact absurd (EnvPath.ext (prefixed.eq_of_length_le (by omega))).symm strict
    have made := EnvPath.child_parent above
    have parentKnown := known.closed p member strict q above
    obtain ⟨list', chains', _, last⟩ := inStep.chain_below member (fun held => strict (free held)) above
    obtain rfl := Except.ok.inj (chains'.symm.trans chains)
    obtain ⟨record, there⟩ := Option.ne_none_iff_exists'.mp (inStep.there q parentKnown)
    have parentStays : q ∉ descendants paths p ++ [p] := by
      intro among
      exact EnvPath.child_ne_root made q.startsWith_refl
        (EnvPath.startsWith_antisymm (EnvPath.startsWith_child made) ((subtree q).mp among).2)
    have thereStill : vaults' (NodeKeys.vaultId (keyOf q)) = some record := by
      rw [removed.kept _ fun n among same => parentStays ?_, there]
      rwa [known.apart q parentKnown n ((subtree n).mp among).1 same]
    refine ⟨none, some ⟨paths.filter after.knows, after⟩,
      Function.update vaults' (NodeKeys.vaultId (keyOf q)) (some (record.remove p.last)), removing, ?_, ?_⟩
    · simp only [delist, above, last, thereStill]
    constructor
    case deleted => exact subtree
    case order => exact order
    case parent => rw [if_neg strict]
    case elsewhere =>
      intro v outside
      rw [Function.update_of_ne (inStep.side outside parentKnown), elsewhere v outside]
    case rest =>
      refine fun _ => ⟨_, rfl, inStep.removed strict member subtree removed above there left, fun x => ?_⟩
      rw [left, subtree, not_and, Bool.not_eq_true]
      exact ⟨fun stays => ⟨stays.1, stays.2 stays.1⟩, fun stays => ⟨stays.1, fun _ => stays.2⟩⟩
    case all => exact fun same => absurd same strict

/-- In step with the server a known node is removed with its subtree, unless environments are
below it that are not to be removed with it. -/
theorem InStep.envRemove (inStep : InStep home project vaults top keyOf) (member : p ∈ project.paths)
    (free : p ∈ project.owner.held → p = top) (nodes : Nat) (recursive : Bool) :
    (Owner.discoverFrom nodes project.owner vaults p (keyOf p) = .error .unfinished ∧
      Owner.envRemove nodes project vaults p recursive = (.error (.owner .unfinished), some project, vaults)) ∨
    (recursive = false ∧ (∃ x ∈ project.paths, x ≠ p ∧ x.startsWith p = true) ∧
      ∃ below after, Owner.envRemove nodes project vaults p recursive = (.error (.hasChildren below), some after, vaults) ∧
        InStep home after vaults top keyOf ∧ ∀ x, x ∈ after.paths ↔ x ∈ project.paths) ∨
    ((recursive = true ∨ ∀ x ∈ project.paths, x.startsWith p = true → x = p) ∧
      ∃ removal left vaults', Owner.envRemove nodes project vaults p recursive = (.ok removal, left, vaults') ∧
        Removes home top keyOf project vaults p removal left vaults') := by
  have knows : project.owner.knows p = true := inStep.knows.mpr member
  obtain ⟨list, chains, ends⟩ := (inStep.reaches member).chain
  obtain cut | ⟨walk, found, same, reached⟩ := (inStep.discoverFrom member).2 nodes
  · refine .inl ⟨cut, ?_⟩
    unfold Owner.envRemove
    simp only [knows, chains, ends, Except.bind, cut]
    rfl
  right
  have listed : ∀ x, x ∈ (project.rediscovered project.owner walk).paths ↔ x ∈ project.paths := by
    intro x
    rw [Project.rediscovered, List.mem_filter, List.mem_dedup, List.mem_append, inStep.knows]
    exact ⟨And.right, fun known => ⟨.inl known, known⟩⟩
  have distinct : (project.rediscovered project.owner walk).paths.Nodup := (List.nodup_dedup _).filter _
  by_cases stops : descendants (project.rediscovered project.owner walk).paths p ≠ [] ∧ recursive = false
  · left
    obtain ⟨x, among⟩ := List.exists_mem_of_ne_nil _ stops.1
    obtain ⟨xKnown, strict, under⟩ := mem_descendants.mp among
    refine ⟨stops.2, ⟨x, (listed x).mp xKnown, strict, under⟩, descendants (project.rediscovered project.owner walk).paths p,
      project.rediscovered project.owner walk, ?_, inStep.relist listed, listed⟩
    unfold Owner.envRemove
    simp only [knows, chains, ends, Except.bind, found, if_pos stops, same]
    rfl
  · right
    obtain ⟨after, vaults', above, left, vaults'', removing, delisting, removes⟩ :=
      inStep.removes member free listed distinct chains
    constructor
    · cases recursive with
      | true => exact .inl rfl
      | false =>
        refine .inr fun x xKnown under => by_contra fun strict => stops ⟨?_, rfl⟩
        exact List.ne_nil_of_mem (mem_descendants.mpr ⟨(listed x).mpr xKnown, strict, under⟩)
    · refine ⟨_, left, vaults'', ?_, removes⟩
      unfold Owner.envRemove
      simp only [knows, chains, ends, Except.bind, found, if_neg stops, same]
      rw [show (project.rediscovered project.owner walk).owner = project.owner from rfl, removing]
      dsimp only
      rw [delisting]
      rfl

end

end GalataVault.Owner
