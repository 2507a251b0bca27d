import Mathlib.Data.List.Sort
import GalataVault.Owner.Rekey
import GalataVault.Owner.Known

/-!
# Repairing what expired

A repair creates a node's vault again at its id, and lists in its children record what the
owner knows below the node: a child whose key is derived, and a child whose sealed key the
owner's key store holds. A child whose sealed key is nowhere is reported as lost.

The key of the node under repair is found down from the deepest held node above it. The way
leads through the record of a node wherever the next key is sealed, so the vaults above a
node are repaired before it.
-/

namespace GalataVault.Owner

/-! ## The code -/

namespace ChildrenRecord

variable {κ : Type}

/-- List a child, unless one is listed. -/
def insertMissing (record : ChildrenRecord κ) (e : ChildEntry κ) : ChildrenRecord κ :=
  if listed : e.seg ∈ record.children.map (·.seg) then record
  else
    -- The source keeps the children sorted by segment; only the order of visits depends on it.
    { children := record.children ++ [e]
      distinct := by
        rw [List.map_append, List.nodup_append]
        refine ⟨record.distinct, List.nodup_singleton _, ?_⟩
        rintro a member b last rfl
        obtain rfl := List.mem_singleton.mp last
        exact listed member }

/-- What is listed stays listed, and the new child is listed. -/
theorem get_insertMissing (record : ChildrenRecord κ) (e : ChildEntry κ) (seg : String) :
    (record.insertMissing e).get seg = (record.get seg).or (if e.seg = seg then some e else none) := by
  unfold insertMissing
  split
  · next listed =>
    by_cases same : e.seg = seg
    · cases found : record.get seg with
      | none =>
        rw [same] at listed
        exact absurd listed (get_eq_none_iff.mp found)
      | some old => rfl
    · rw [if_neg same, Option.or_none]
  · rw [get, get, List.find?_append]
    congr 1
    by_cases same : e.seg = seg <;> simp [same]

/-- List every child of a list that is not listed. -/
def insertAll (record : ChildrenRecord κ) (entries : List (ChildEntry κ)) : ChildrenRecord κ :=
  entries.foldl insertMissing record

theorem get_insertAll (record : ChildrenRecord κ) (entries : List (ChildEntry κ)) (seg : String) :
    (record.insertAll entries).get seg = (record.get seg).or (entries.find? (·.seg = seg)) := by
  induction entries generalizing record with
  | nil => simp [insertAll]
  | cons e entries inductionHypothesis =>
    rw [insertAll, List.foldl_cons]
    have rest := inductionHypothesis (record.insertMissing e)
    rw [insertAll] at rest
    rw [rest, get_insertMissing, Option.or_assoc]
    congr 1
    by_cases same : e.seg = seg
    · rw [if_pos same, List.find?_cons_of_pos (by simpa using same)]
      rfl
    · rw [if_neg same, List.find?_cons_of_neg (by simpa using same)]
      rfl

end ChildrenRecord

/-- Known paths strictly below a path, deepest first. `paths` are the known ones. -/
def descendants (paths : List EnvPath) (path : EnvPath) : List EnvPath :=
  (paths.filter fun k => k ≠ path && k.startsWith path).insertionSort fun a b => b.depth ≤ a.depth

/-- Known paths directly below a path. -/
def childrenOf (paths : List EnvPath) (path : EnvPath) : List EnvPath :=
  (descendants paths path).filter fun p => p.depth = path.depth + 1

variable {κ ν : Type}

/-- What a child is listed with again: nothing if its key is sealed and not held. -/
def entryFor (owner : Local κ ν) (child : EnvPath) : Option (ChildEntry κ) :=
  match owner.tree child with
  | none => none
  | some node =>
    if node.isSealed then (owner.keys child).map fun k => ⟨child.last, .sealed (some k)⟩
    else some ⟨child.last, .derived⟩

/-- Whether a child is known to be sealed, and no key is held for it. -/
def isLost (owner : Local κ ν) (child : EnvPath) : Bool :=
  (owner.tree child).any (·.isSealed) && (owner.keys child).isNone

/-- What a repair reports. -/
structure Repair where
  created : Bool
  children : Nat
  lost : List EnvPath

variable [NodeKeys κ ν]

section

variable [DecidableEq ν]

/-- Create a vault again at its id, and list its known children in its children record. On a
live vault only the children record is completed. -/
def envRepair (paths : List EnvPath) (owner : Local κ ν) (vaults : Vaults κ ν) (path : EnvPath) :
    Except OwnerError (Repair × Vaults κ ν) :=
  if owner.knows path then do
    let keys ← chain owner vaults path
    let key ← chainEnd keys
    let vault := NodeKeys.vaultId key
    let record := (vaults vault).getD .empty
    let children := childrenOf paths path
    let entries := children.filterMap (entryFor owner)
    pure (⟨(vaults vault).isNone, entries.length, children.filter (isLost owner)⟩,
      Function.update vaults vault (some (record.insertAll entries)))
  else .error .unknownPath

/-- Repair paths one after the other: what each call returned, and the vaults after them. -/
def repairAll (paths : List EnvPath) (owner : Local κ ν) :
    Vaults κ ν → List EnvPath → List (Except OwnerError Repair) × Vaults κ ν
  | vaults, [] => ([], vaults)
  | vaults, path :: rest =>
    match envRepair paths owner vaults path with
    | .error failure =>
      let after := repairAll paths owner vaults rest
      (.error failure :: after.1, after.2)
    | .ok (repair, vaults) =>
      let after := repairAll paths owner vaults rest
      (.ok repair :: after.1, after.2)

/-- The paths that calls reported as lost. -/
def lostBy (outcomes : List (Except OwnerError Repair)) : List EnvPath :=
  outcomes.flatMap fun outcome =>
    match outcome with
    | .error _ => []
    | .ok repair => repair.lost

end

/-! ## The state between repairs -/

theorem mem_childrenOf {paths : List EnvPath} {path p : EnvPath} :
    p ∈ childrenOf paths path ↔ p ∈ paths ∧ p.parent = some path := by
  rw [← EnvPath.child_iff, childrenOf, descendants, List.mem_filter, List.mem_insertionSort, List.mem_filter]
  simp only [Bool.and_eq_true, decide_eq_true_eq]
  constructor
  · rintro ⟨⟨known, _, under⟩, deep⟩
    exact ⟨known, under, deep⟩
  · rintro ⟨known, under, deep⟩
    refine ⟨⟨known, ?_, under⟩, deep⟩
    rintro rfl
    omega

/-- How things stand between repairs, some paths lost and some pending: what is not there is
pending or at or below a lost path; the records lead to the known children that are not lost,
and to no others; and a lost path is one that is sealed and not held, below a node that is
not pending any more. -/
structure Standing (paths : List EnvPath) (owner : Local κ ν) (top : EnvPath) (keyOf : EnvPath → κ) (vaults : Vaults κ ν)
    (lost pending : List EnvPath) : Prop where
  absent : ∀ p ∈ paths, vaults (NodeKeys.vaultId (keyOf p)) = none → p ∈ pending ∨ ∃ l ∈ lost, p.startsWith l = true
  waiting : ∀ p ∈ pending, p ∈ paths ∧ vaults (NodeKeys.vaultId (keyOf p)) = none
  lists : ∀ p ∈ paths, p ≠ top → p ∉ lost → ∀ q, p.parent = some q →
    ∀ record, vaults (NodeKeys.vaultId (keyOf q)) = some record →
      ∃ e, record.get p.last = some e ∧ e.mode.isSealed = (owner.tree p).any (·.isSealed) ∧
        e.mode.key (keyOf q) p.last = some (keyOf p)
  leads : ∀ q ∈ paths, ∀ record, vaults (NodeKeys.vaultId (keyOf q)) = some record → ∀ e ∈ record.children,
    ∀ p, q.child e.seg = some p → ∀ k, e.mode.key (keyOf q) e.seg = some k → p ∈ paths ∧ p ∉ lost ∧ k = keyOf p
  lost : ∀ l ∈ lost, l ∈ paths ∧ l ≠ top ∧ isLost owner l = true ∧ ∀ q, l.parent = some q → q ∉ pending

section

variable {paths : List EnvPath} {owner : Local κ ν} {start vaults : Vaults κ ν} {top : EnvPath} {keyOf : EnvPath → κ}
  {lost pending : List EnvPath}

/-- The path of a descent's next step. -/
theorem child_toward {here p : EnvPath} {seg : String} {rest : List String} (whole : p.segments = here.segments ++ seg :: rest) :
    ∃ child, here.child seg = some child ∧ p.segments = child.segments ++ rest := by
  have bounded := p.bounded
  rw [whole, List.length_append, List.length_cons] at bounded
  let child : EnvPath := ⟨here.segments ++ [seg], by simp, by
    rw [List.length_append, List.length_singleton]
    omega⟩
  refine ⟨child, EnvPath.child_of_segments rfl, ?_⟩
  rw [whole, List.append_assoc]
  rfl

/-- The key of a known child that is not lost is found, if the vault above it is there where
it is sealed. -/
theorem Standing.nextKey (known : Known paths owner start top keyOf)
    (standing : Standing paths owner top keyOf vaults lost pending) {here child : EnvPath} (member : child ∈ paths)
    (strict : child ≠ top) (kept : child ∉ lost) (above : child.parent = some here)
    (there : vaults (NodeKeys.vaultId (keyOf here)) ≠ none) :
    nextKey vaults owner.tree (keyOf here) child.last child = .ok (keyOf child) := by
  unfold Owner.nextKey
  cases flag : (owner.tree child).any (·.isSealed) with
  | false => rw [known.derived child member strict flag here above, if_neg Bool.false_ne_true]
  | true =>
    obtain ⟨record, opens⟩ := Option.ne_none_iff_exists'.mp there
    obtain ⟨e, listed, _, key⟩ := standing.lists child member strict kept here above record opens
    simp only [if_true, opens, listed, key]

/-- Whatever key is found for a known child is its key. -/
theorem Standing.nextKey_only (known : Known paths owner start top keyOf)
    (standing : Standing paths owner top keyOf vaults lost pending) {here child : EnvPath} (hereKnown : here ∈ paths)
    (member : child ∈ paths) (strict : child ≠ top) (above : child.parent = some here) {k : κ}
    (found : Owner.nextKey vaults owner.tree (keyOf here) child.last child = .ok k) : k = keyOf child := by
  unfold Owner.nextKey at found
  cases flag : (owner.tree child).any (·.isSealed) with
  | false =>
    rw [flag, if_neg Bool.false_ne_true] at found
    rw [known.derived child member strict flag here above, Except.ok.inj found]
  | true =>
    rw [flag, if_pos rfl] at found
    split at found
    · cases found
    · next record opens =>
      split at found
      · cases found
      · next e listed =>
        split at found
        · next next key =>
          obtain rfl := Except.ok.inj found
          have seg := ChildrenRecord.get_seg listed
          have made := EnvPath.child_parent above
          rw [← seg] at key made
          exact (standing.leads here hereKnown record opens e (ChildrenRecord.mem_of_get listed) child made next key).2.2
        · cases found

/-- Down from a known node to another, along vaults that are there, a chain leads to its key. -/
theorem Standing.descends (known : Known paths owner start top keyOf)
    (standing : Standing paths owner top keyOf vaults lost pending) {here p : EnvPath} (hereKnown : here ∈ paths)
    (member : p ∈ paths) {segs : List String} (whole : p.segments = here.segments ++ segs)
    (kept : ∀ l ∈ lost, p.startsWith l = false)
    (there : ∀ a ∈ paths, p.startsWith a = true → a ≠ p → vaults (NodeKeys.vaultId (keyOf a)) ≠ none) :
    descend vaults owner.tree here (keyOf here) segs = .ok (p, keyOf p) := by
  induction segs generalizing here with
  | nil =>
    rw [List.append_nil] at whole
    rw [EnvPath.ext whole]
    rfl
  | cons seg rest inductionHypothesis =>
    obtain ⟨child, made, toward⟩ := child_toward whole
    have hereUnder := known.under here hereKnown
    have beneath : p.startsWith child = true := EnvPath.startsWith_iff.mpr ⟨rest, toward.symm⟩
    have childUnder := EnvPath.startsWith_trans (EnvPath.startsWith_child made) hereUnder
    have childKnown : child ∈ paths := known.above member childUnder beneath
    have strict : child ≠ top := EnvPath.child_ne_root made hereUnder
    have unlost : child ∉ lost := by
      intro gone
      rw [kept child gone] at beneath
      cases beneath
    have lower : here ≠ p := by
      rintro rfl
      have long := congrArg List.length whole
      rw [List.length_append, List.length_cons] at long
      omega
    have present := there here hereKnown (EnvPath.startsWith_trans beneath (EnvPath.startsWith_child made)) lower
    have found := standing.nextKey known childKnown strict unlost (EnvPath.parent_child made) present
    rw [EnvPath.child_last made] at found
    rw [descend, made]
    simp only [found]
    exact inductionHypothesis childKnown toward

/-- Whatever key a descent between known nodes leads to is the node's own. -/
theorem Standing.descends_only (known : Known paths owner start top keyOf)
    (standing : Standing paths owner top keyOf vaults lost pending) {here p there : EnvPath} (hereKnown : here ∈ paths)
    (member : p ∈ paths) {segs : List String} (whole : p.segments = here.segments ++ segs) {k : κ}
    (descends : descend vaults owner.tree here (keyOf here) segs = .ok (there, k)) : k = keyOf p := by
  induction segs generalizing here with
  | nil =>
    rw [List.append_nil] at whole
    cases descends
    rw [EnvPath.ext whole]
  | cons seg rest inductionHypothesis =>
    obtain ⟨child, made, toward⟩ := child_toward whole
    have hereUnder := known.under here hereKnown
    have beneath : p.startsWith child = true := EnvPath.startsWith_iff.mpr ⟨rest, toward.symm⟩
    have childUnder := EnvPath.startsWith_trans (EnvPath.startsWith_child made) hereUnder
    have childKnown : child ∈ paths := known.above member childUnder beneath
    have strict : child ≠ top := EnvPath.child_ne_root made hereUnder
    rw [descend, made] at descends
    dsimp only at descends
    split at descends
    · cases descends
    · next next found =>
      rw [← EnvPath.child_last made] at found
      obtain rfl := standing.nextKey_only known hereKnown childKnown strict (EnvPath.parent_child made) found
      exact inductionHypothesis childKnown toward descends

/-- Where the chain of a known path begins. -/
theorem Known.chain_begins (known : Known paths owner start top keyOf) {p : EnvPath} (member : p ∈ paths) :
    ∃ h, owner.heldRootFor p = some h ∧ h ∈ paths ∧ owner.keys h = some (keyOf h) ∧
      p.segments = h.segments ++ p.segments.drop h.depth := by
  obtain ⟨h, deepest⟩ := heldRootFor_exists known.topmost (known.under p member)
  obtain ⟨held, above, _⟩ := heldRootFor_some deepest
  obtain ⟨under, key⟩ := known.held h held
  exact ⟨h, deepest, known.above member under above, key,
    (List.prefix_iff_eq_append.mp (EnvPath.startsWith_iff.mp above)).symm⟩

/-- The chain of a known path that is not lost leads to its key, if the vaults above it are
there. -/
theorem Standing.chain (known : Known paths owner start top keyOf)
    (standing : Standing paths owner top keyOf vaults lost pending) {p : EnvPath} (member : p ∈ paths)
    (kept : ∀ l ∈ lost, p.startsWith l = false)
    (there : ∀ a ∈ paths, p.startsWith a = true → a ≠ p → vaults (NodeKeys.vaultId (keyOf a)) ≠ none) :
    ∃ list, Owner.chain owner vaults p = .ok list ∧ chainEnd list = .ok (keyOf p) := by
  obtain ⟨h, deepest, hereKnown, key, whole⟩ := known.chain_begins member
  obtain ⟨list, chains, ends⟩ := chainFrom_of_descend (standing.descends known hereKnown member whole kept there)
  refine ⟨list, ?_, ?_⟩
  · simp only [Owner.chain, deepest, key, chains]
  · simp only [chainEnd, ends]

/-- Whatever key a chain of a known path leads to is the node's own. -/
theorem Standing.chain_only (known : Known paths owner start top keyOf)
    (standing : Standing paths owner top keyOf vaults lost pending) {p : EnvPath} (member : p ∈ paths)
    {list : List (EnvPath × κ)} {k : κ} (chains : Owner.chain owner vaults p = .ok list) (ends : chainEnd list = .ok k) :
    k = keyOf p := by
  obtain ⟨h, deepest, hereKnown, key, whole⟩ := known.chain_begins member
  obtain ⟨h', kh, last, deepest', key', descends, last_ends⟩ := descend_of_chain chains
  obtain rfl := Option.some.inj (deepest.symm.trans deepest')
  obtain rfl := Option.some.inj (key.symm.trans key')
  simp only [chainEnd, last_ends, Except.ok.injEq] at ends
  obtain rfl := ends
  exact standing.descends_only known hereKnown member whole descends

/-! ## The record a repair makes -/

/-- The children record a repair makes for a vault that was not there. -/
def relisted (paths : List EnvPath) (owner : Local κ ν) (path : EnvPath) : ChildrenRecord κ :=
  ChildrenRecord.empty.insertAll ((childrenOf paths path).filterMap (entryFor owner))

omit [NodeKeys κ ν] in
theorem entryFor_seg {child : EnvPath} {e : ChildEntry κ} (relists : entryFor owner child = some e) : e.seg = child.last := by
  unfold entryFor at relists
  split at relists
  · cases relists
  · split at relists
    · obtain ⟨k, _, rfl⟩ := Option.map_eq_some_iff.mp relists
      rfl
    · obtain rfl := Option.some.inj relists
      rfl

omit [NodeKeys κ ν] in
/-- A child that is known is relisted, unless it is lost. -/
theorem get_relisted {q p : EnvPath} (above : p.parent = some q) :
    (relisted paths owner q).get p.last = if p ∈ paths then entryFor owner p else none := by
  have made := EnvPath.child_parent above
  rw [relisted, ChildrenRecord.get_insertAll]
  change (none : Option (ChildEntry κ)).or _ = _
  rw [Option.none_or]
  cases found : ((childrenOf paths q).filterMap (entryFor owner)).find? (·.seg = p.last) with
  | some e =>
    obtain ⟨child, below, relists⟩ := List.mem_filterMap.mp (List.mem_of_find?_eq_some found)
    obtain ⟨member, aboveChild⟩ := mem_childrenOf.mp below
    have seg : e.seg = p.last := by simpa using List.find?_some found
    have madeChild := EnvPath.child_parent aboveChild
    rw [← entryFor_seg relists, seg, made] at madeChild
    obtain rfl := Option.some.inj madeChild
    rw [if_pos member, relists]
  | none =>
    split
    · next member =>
      cases relists : entryFor owner p with
      | none => rfl
      | some e =>
        have listed := List.mem_filterMap.mpr ⟨p, mem_childrenOf.mpr ⟨member, above⟩, relists⟩
        have other := List.find?_eq_none.mp found e listed
        simp [entryFor_seg relists] at other
    · rfl

/-- What a known child that is not lost is relisted with leads to its key, and is sealed as the
tree says. -/
theorem Known.relists (known : Known paths owner start top keyOf) {q p : EnvPath} (member : p ∈ paths) (strict : p ≠ top)
    (above : p.parent = some q) (kept : isLost owner p = false) :
    ∃ e, entryFor owner p = some e ∧ e.mode.isSealed = (owner.tree p).any (·.isSealed) ∧
      e.mode.key (keyOf q) p.last = some (keyOf p) := by
  obtain ⟨node, noted⟩ := Option.isSome_iff_exists.mp ((known.listed p).mp member)
  cases flag : node.isSealed with
  | false =>
    have key := known.derived p member strict (by rw [noted]; exact flag) q above
    refine ⟨⟨p.last, .derived⟩, ?_, ?_, ?_⟩
    · rw [entryFor, noted]
      simp [flag]
    · rw [noted]
      exact flag.symm
    · rw [key]
      rfl
  | true =>
    cases stored : owner.keys p with
    | none =>
      rw [isLost, noted, stored] at kept
      simp [flag] at kept
    | some k =>
      obtain rfl := known.stored p member k stored
      refine ⟨⟨p.last, .sealed (some (keyOf p))⟩, ?_, ?_, rfl⟩
      · rw [entryFor, noted]
        simp [flag, stored]
      · rw [noted]
        exact flag.symm

/-- What a known child is relisted with leads to its key only, and the child is not lost. -/
theorem Known.relists_only (known : Known paths owner start top keyOf) {q p : EnvPath} (member : p ∈ paths)
    (strict : p ≠ top) (above : p.parent = some q) {e : ChildEntry κ} (relists : entryFor owner p = some e) {k : κ}
    (key : e.mode.key (keyOf q) p.last = some k) : isLost owner p = false ∧ k = keyOf p := by
  have kept : isLost owner p = false := by
    unfold entryFor at relists
    unfold isLost
    split at relists
    · cases relists
    · next node noted =>
      rw [noted]
      split at relists
      · obtain ⟨stored, found, _⟩ := Option.map_eq_some_iff.mp relists
        simp [found]
      · next derived => simp [derived]
  obtain ⟨e', relists', _, key'⟩ := known.relists member strict above kept
  obtain rfl := Option.some.inj (relists.symm.trans relists')
  exact ⟨kept, Option.some.inj (key.symm.trans key')⟩

/-! ## One repair -/

section

variable [DecidableEq ν] {p : EnvPath}

/-- What a repair of a missing vault that succeeds does: it makes the vault of the node's own
key, with what is known below it. -/
theorem Standing.repairs_only (known : Known paths owner start top keyOf)
    (standing : Standing paths owner top keyOf vaults lost (p :: pending)) {repair : Repair} {after : Vaults κ ν}
    (repaired : envRepair paths owner vaults p = .ok (repair, after)) :
    after = Function.update vaults (NodeKeys.vaultId (keyOf p)) (some (relisted paths owner p)) ∧
      repair.lost = (childrenOf paths p).filter (isLost owner) := by
  obtain ⟨member, missing⟩ := standing.waiting p List.mem_cons_self
  unfold envRepair at repaired
  split at repaired
  · cases chains : Owner.chain owner vaults p with
    | error failure =>
      rw [chains] at repaired
      cases repaired
    | ok keys =>
      rw [chains] at repaired
      cases ends : chainEnd keys with
      | error failure =>
        change (chainEnd keys >>= _) = _ at repaired
        rw [ends] at repaired
        cases repaired
      | ok key =>
        obtain rfl := standing.chain_only known member chains ends
        change (chainEnd keys >>= _) = _ at repaired
        rw [ends] at repaired
        cases repaired
        refine ⟨?_, rfl⟩
        rw [missing]
        rfl
  · cases repaired

/-- A repair of a node that is at or below no lost one succeeds, if what is above it is not
repaired later. -/
theorem Standing.repairs (known : Known paths owner start top keyOf)
    (standing : Standing paths owner top keyOf vaults lost (p :: pending)) (order : ∀ q ∈ pending, p.startsWith q = false)
    (kept : ∀ l ∈ lost, p.startsWith l = false) : ∃ result, envRepair paths owner vaults p = .ok result := by
  obtain ⟨member, _⟩ := standing.waiting p List.mem_cons_self
  have there : ∀ a ∈ paths, p.startsWith a = true → a ≠ p → vaults (NodeKeys.vaultId (keyOf a)) ≠ none := by
    intro a aKnown beneath lower missing
    obtain waits | ⟨l, gone, under⟩ := standing.absent a aKnown missing
    · obtain same | later := List.mem_cons.mp waits
      · exact lower same
      · rw [order a later] at beneath
        cases beneath
    · rw [EnvPath.startsWith_above beneath (kept l gone)] at under
      cases under
  obtain ⟨list, chains, ends⟩ := standing.chain known member kept there
  unfold envRepair
  rw [if_pos (show owner.knows p = true from (known.listed p).mp member), chains]
  change ∃ result, (chainEnd list >>= _) = _
  rw [ends]
  exact ⟨_, rfl⟩

/-- How things stand after a repair of a missing vault that succeeds. -/
theorem Standing.repaired (known : Known paths owner start top keyOf)
    (standing : Standing paths owner top keyOf vaults lost (p :: pending)) (fresh : p ∉ pending) :
    Standing paths owner top keyOf (Function.update vaults (NodeKeys.vaultId (keyOf p)) (some (relisted paths owner p)))
      (lost ++ (childrenOf paths p).filter (isLost owner)) pending := by
  obtain ⟨member, _⟩ := standing.waiting p List.mem_cons_self
  have newlyLost : ∀ {c}, c ∈ (childrenOf paths p).filter (isLost owner) ↔
      (c ∈ paths ∧ c.parent = some p) ∧ isLost owner c = true := by
    intro c
    rw [List.mem_filter, mem_childrenOf]
  -- Distinct known nodes have distinct vaults: only the node's own vault is changed.
  have others : ∀ {q}, q ∈ paths → q ≠ p → ∀ made, Function.update vaults (NodeKeys.vaultId (keyOf p)) made
      (NodeKeys.vaultId (keyOf q)) = vaults (NodeKeys.vaultId (keyOf q)) :=
    fun qKnown other _ => Function.update_of_ne (fun same => other (known.apart _ qKnown p member same)) ..
  constructor
  case absent =>
    intro a aKnown missing
    by_cases here : a = p
    · subst here
      rw [Function.update_self] at missing
      cases missing
    · rw [others aKnown here] at missing
      obtain waits | ⟨l, gone, under⟩ := standing.absent a aKnown missing
      · exact .inl ((List.mem_cons.mp waits).resolve_left here)
      · exact .inr ⟨l, List.mem_append_left _ gone, under⟩
  case waiting =>
    intro q later
    obtain ⟨qKnown, missing⟩ := standing.waiting q (List.mem_cons_of_mem _ later)
    have other : q ≠ p := fun same => fresh (same ▸ later)
    exact ⟨qKnown, (others qKnown other _).trans missing⟩
  case lists =>
    intro c cKnown strict kept q above record opens
    by_cases here : q = p
    · subst here
      rw [Function.update_self] at opens
      obtain rfl := Option.some.inj opens
      have unlost : isLost owner c = false := by
        rw [← Bool.not_eq_true]
        exact fun gone => kept (List.mem_append_right _ (newlyLost.mpr ⟨⟨cKnown, above⟩, gone⟩))
      obtain ⟨e, relists, flag, key⟩ := known.relists cKnown strict above unlost
      exact ⟨e, by rw [get_relisted above, if_pos cKnown, relists], flag, key⟩
    · rw [others (known.closed c cKnown strict q above) here] at opens
      exact standing.lists c cKnown strict (fun gone => kept (List.mem_append_left _ gone)) q above record opens
  case leads =>
    intro q qKnown record opens e listed c made k key
    have above := EnvPath.parent_child made
    have strict := EnvPath.child_ne_root made (known.under q qKnown)
    by_cases here : q = p
    · subst here
      rw [Function.update_self] at opens
      obtain rfl := Option.some.inj opens
      have found := ChildrenRecord.get_of_mem listed
      rw [← EnvPath.child_last made, get_relisted above] at found
      rw [← EnvPath.child_last made] at key
      obtain ⟨cKnown, relists⟩ := Option.ite_none_right_eq_some.mp found
      obtain ⟨unlost, rfl⟩ := known.relists_only cKnown strict above relists key
      refine ⟨cKnown, fun gone => ?_, rfl⟩
      obtain before | now := List.mem_append.mp gone
      · exact (standing.lost c before).2.2.2 q above List.mem_cons_self
      · have lostNow := (newlyLost.mp now).2
        rw [unlost] at lostNow
        cases lostNow
    · rw [others qKnown here] at opens
      obtain ⟨cKnown, unlost, rfl⟩ := standing.leads q qKnown record opens e listed c made k key
      refine ⟨cKnown, fun gone => ?_, rfl⟩
      obtain before | now := List.mem_append.mp gone
      · exact unlost before
      · exact here (Option.some.inj (above.symm.trans (newlyLost.mp now).1.2))
  case lost =>
    intro l gone
    obtain before | now := List.mem_append.mp gone
    · obtain ⟨lKnown, strict, sealedUnheld, settled⟩ := standing.lost l before
      exact ⟨lKnown, strict, sealedUnheld, fun q above later => settled q above (List.mem_cons_of_mem _ later)⟩
    · obtain ⟨⟨lKnown, above⟩, sealedUnheld⟩ := newlyLost.mp now
      refine ⟨lKnown, EnvPath.child_ne_root (EnvPath.child_parent above) (known.under p member), sealedUnheld, ?_⟩
      intro q above' later
      obtain rfl := Option.some.inj (above.symm.trans above')
      exact fresh later

/-- How things stand after a repair of a missing vault that fails: the node is at or below a
lost one. -/
theorem Standing.failed (known : Known paths owner start top keyOf)
    (standing : Standing paths owner top keyOf vaults lost (p :: pending)) (order : ∀ q ∈ pending, p.startsWith q = false)
    {failure : OwnerError} (fails : envRepair paths owner vaults p = .error failure) :
    Standing paths owner top keyOf vaults lost pending := by
  have below : ∃ l ∈ lost, p.startsWith l = true := by
    by_contra unlost
    obtain ⟨result, succeeds⟩ := standing.repairs known order fun l gone => by
      rw [← Bool.not_eq_true]
      exact fun under => unlost ⟨l, gone, under⟩
    rw [fails] at succeeds
    cases succeeds
  constructor
  case absent =>
    intro a aKnown missing
    obtain waits | gone := standing.absent a aKnown missing
    · obtain rfl | later := List.mem_cons.mp waits
      · exact .inr below
      · exact .inl later
    · exact .inr gone
  case waiting => exact fun q later => standing.waiting q (List.mem_cons_of_mem _ later)
  case lists => exact standing.lists
  case leads => exact standing.leads
  case lost =>
    intro l gone
    obtain ⟨lKnown, strict, sealedUnheld, settled⟩ := standing.lost l gone
    exact ⟨lKnown, strict, sealedUnheld, fun q above later => settled q above (List.mem_cons_of_mem _ later)⟩

/-! ## Repairs one after the other -/

/-- How things stand after some of the calls; vaults that are not of a call are as they were. -/
theorem Standing.repairAll (known : Known paths owner start top keyOf) {calls : List EnvPath}
    (standing : Standing paths owner top keyOf vaults lost (calls ++ pending))
    (order : (calls ++ pending).Pairwise fun p q => p.startsWith q = false) :
    Standing paths owner top keyOf (repairAll paths owner vaults calls).2
        (lost ++ lostBy (repairAll paths owner vaults calls).1) pending ∧
      ∀ v, (∀ p ∈ calls, NodeKeys.vaultId (keyOf p) ≠ v) → (repairAll paths owner vaults calls).2 v = vaults v := by
  induction calls generalizing vaults lost with
  | nil =>
    rw [Owner.repairAll, lostBy, List.flatMap_nil, List.append_nil]
    exact ⟨standing, fun _ _ => rfl⟩
  | cons p rest inductionHypothesis =>
    rw [List.cons_append] at standing order
    obtain ⟨first, order⟩ := List.pairwise_cons.mp order
    have fresh : p ∉ rest ++ pending := by
      intro again
      have never := first p again
      rw [p.startsWith_refl] at never
      cases never
    cases repaired : envRepair paths owner vaults p with
    | error failure =>
      obtain ⟨stands, same⟩ := inductionHypothesis (standing.failed known first repaired) order
      simp only [Owner.repairAll, repaired]
      exact ⟨stands, fun v other => same v fun q later => other q (List.mem_cons_of_mem _ later)⟩
    | ok result =>
      obtain ⟨repair, after⟩ := result
      obtain ⟨rfl, gone⟩ := standing.repairs_only known repaired
      obtain ⟨stands, same⟩ := inductionHypothesis (standing.repaired known fresh) order
      simp only [Owner.repairAll, repaired]
      constructor
      · rw [← gone, List.append_assoc] at stands
        exact stands
      · intro v other
        rw [same v fun q later => other q (List.mem_cons_of_mem _ later)]
        exact Function.update_of_ne (Ne.symm (other p List.mem_cons_self)) ..

end

/-! ## What a rediscovery finds after the repairs -/

/-- The records lead from the topmost node to known nodes only that are not at or below a lost
one. -/
theorem Standing.spans_only (known : Known paths owner start top keyOf)
    (standing : Standing paths owner top keyOf vaults lost pending) {p : EnvPath} {k : κ} {s : Bool}
    (spans : Spans vaults top (keyOf top) ((owner.tree top).any (·.isSealed)) p k s) :
    (p ∈ paths ∧ ∀ l ∈ lost, p.startsWith l = false) ∧ k = keyOf p ∧ s = (owner.tree p).any (·.isSealed) := by
  induction spans with
  | root =>
    refine ⟨⟨known.root, fun l gone => ?_⟩, rfl, rfl⟩
    obtain ⟨lKnown, strict, _⟩ := standing.lost l gone
    rw [← Bool.not_eq_true]
    exact fun under => strict (EnvPath.startsWith_antisymm (known.under l lKnown) under)
  | @entry q p parentKey k parentSealed record seg e _ opens listed made found inductionHypothesis =>
    obtain ⟨⟨qKnown, kept⟩, rfl, _⟩ := inductionHypothesis
    obtain rfl := ChildrenRecord.get_seg listed
    obtain ⟨member, unlost, rfl⟩ :=
      standing.leads q qKnown record opens e (ChildrenRecord.mem_of_get listed) p made k found
    have strict := EnvPath.child_ne_root made (known.under q qKnown)
    refine ⟨⟨member, fun l gone => ?_⟩, rfl, ?_⟩
    · rw [← Bool.not_eq_true]
      intro under
      obtain rfl | above := EnvPath.startsWith_parent made under
      · exact unlost gone
      · rw [kept l gone] at above
        cases above
    · obtain ⟨again, relisted, flag, _⟩ := standing.lists p member strict unlost q (EnvPath.parent_child made) record opens
      rw [EnvPath.child_last made] at relisted
      obtain rfl := Option.some.inj (listed.symm.trans relisted)
      exact flag

/-- Where a node is spanned and its vault is there, a known child that is not lost is spanned. -/
theorem Standing.spans_child (standing : Standing paths owner top keyOf vaults lost pending) {q p : EnvPath} (member : p ∈ paths) (strict : p ≠ top)
    (unlost : p ∉ lost) (above : p.parent = some q) {s : Bool}
    (spans : Spans vaults top (keyOf top) ((owner.tree top).any (·.isSealed)) q (keyOf q) s)
    (there : vaults (NodeKeys.vaultId (keyOf q)) ≠ none) :
    Spans vaults top (keyOf top) ((owner.tree top).any (·.isSealed)) p (keyOf p) ((owner.tree p).any (·.isSealed)) := by
  obtain ⟨record, opens⟩ := Option.ne_none_iff_exists'.mp there
  obtain ⟨e, listed, flag, key⟩ := standing.lists p member strict unlost q above record opens
  rw [← flag]
  exact .entry spans opens listed (EnvPath.child_parent above) key

/-- After the repairs the records lead to every known node that is not at or below a lost one. -/
theorem Standing.spans (known : Known paths owner start top keyOf)
    (standing : Standing paths owner top keyOf vaults lost []) {p : EnvPath} (member : p ∈ paths)
    (kept : ∀ l ∈ lost, p.startsWith l = false) :
    Spans vaults top (keyOf top) ((owner.tree top).any (·.isSealed)) p (keyOf p) ((owner.tree p).any (·.isSealed)) := by
  induction p, known.under p member using EnvPath.under_induction with
  | root => exact .root
  | child q p under above inductionHypothesis =>
    have made := EnvPath.child_parent above
    have strict := EnvPath.child_ne_root made under
    have qKnown := known.closed p member strict q above
    have keptAbove : ∀ l ∈ lost, q.startsWith l = false :=
      fun l gone => EnvPath.startsWith_above (EnvPath.startsWith_child made) (kept l gone)
    have unlost : p ∉ lost := by
      intro gone
      have self := kept p gone
      rw [p.startsWith_refl] at self
      cases self
    have there : vaults (NodeKeys.vaultId (keyOf q)) ≠ none := by
      intro missing
      obtain waits | ⟨l, gone, beneath⟩ := standing.absent q qKnown missing
      · cases waits
      · rw [keptAbove l gone] at beneath
        cases beneath
    exact standing.spans_child member strict unlost above (inductionHypothesis qKnown keptAbove) there

/-- The topmost node's chain is its own key. -/
theorem Known.chain_top (known : Known paths owner start top keyOf) (vaults : Vaults κ ν) :
    Owner.chain owner vaults top = .ok [(top, keyOf top)] := by
  have deepest : owner.heldRootFor top = some top :=
    heldRootFor_eq known.topmost top.startsWith_refl fun h held above =>
      Nat.le_of_eq (congrArg EnvPath.depth (EnvPath.startsWith_antisymm (known.held h held).1 above))
  have key := (known.held top known.topmost).2
  simp only [Owner.chain, deepest, key, EnvPath.depth, List.drop_length]
  rfl

/-- Nothing is known outside the topmost node's subtree. -/
theorem Known.unknown (known : Known paths owner start top keyOf) {p : EnvPath} (outside : p.startsWith top = false) :
    owner.tree p = none := by
  cases noted : owner.tree p with
  | none => rfl
  | some node =>
    have below := known.under p (known.of_node noted).1
    rw [outside] at below
    cases below

/-- What a rediscovery from the topmost node finds after the repairs. -/
theorem Standing.discovers [DecidableEq ν] (known : Known paths owner start top keyOf)
    (standing : Standing paths owner top keyOf vaults lost []) :
    ∃ bound, ∀ nodes, bound ≤ nodes → ∃ after walk, discover nodes owner vaults top = .ok (after, walk) ∧
      ∀ p, after.tree p = if lost.any (p.startsWith ·) then none else owner.tree p := by
  have opened : ∀ p k s, Spans vaults top (keyOf top) ((owner.tree top).any (·.isSealed)) p k s →
      vaults (NodeKeys.vaultId k) ≠ none := by
    intro p k s spans missing
    obtain ⟨⟨member, kept⟩, rfl, _⟩ := standing.spans_only known spans
    obtain waits | ⟨l, gone, beneath⟩ := standing.absent p member missing
    · cases waits
    · rw [kept l gone] at beneath
      cases beneath
  have opens : (vaults (NodeKeys.vaultId (keyOf top))).isSome = true :=
    Option.isSome_iff_ne_none.mpr (opened _ _ _ .root)
  have quiet : Unheld owner vaults top (keyOf top) ((owner.tree top).any (·.isSealed)) :=
    fun p k s spans missing _ => absurd missing (opened p k s spans)
  have begins := spanning_begins vaults top (keyOf top) ((owner.tree top).any (·.isSealed))
  let first : Visit κ := ⟨top, keyOf top, (owner.tree top).any (·.isSealed), none⟩
  refine ⟨([first].map (weight vaults)).sum + 1, fun nodes enough => ?_⟩
  have never : ∀ v : ν, (none : Option OwnerError) ≠ some .unfinished := fun _ => by simp
  have ends : walkReading (fun _ => none) owner top nodes ⟨vaults, fun _ => none, [], []⟩ [first] ≠ .error .unfinished :=
    (walkReading_ends quiet opens never begins enough enough).2
  cases walked : walkReading (fun _ => none) owner top nodes ⟨vaults, fun _ => none, [], []⟩ [first] with
  | error failure =>
    obtain rfl | ⟨p, k, s, _, unread⟩ := walkReading_fails quiet opens begins walked
    · exact absurd walked ends
    · cases unread
  | ok walk =>
    have replants := (walkReading_spanning quiet opens begins walked).replants
    have reached : walk.unreachable = [] := by
      refine List.eq_nil_iff_forall_not_mem.mpr fun u member => ?_
      obtain ⟨k, s, spans, missing⟩ := (replants.unopened u).mp member
      exact opened u k s spans missing
    rw [walkReading_all] at walked
    refine ⟨{ owner with tree := replanted owner.tree top walk }, walk, ?_, fun p => ?_⟩
    · rw [discover, if_pos (show owner.knows top = true from (known.listed top).mp known.root), known.chain_top]
      change discoverFrom nodes owner vaults top (keyOf top) = _
      unfold discoverFrom
      dsimp only
      rw [walked]
      rfl
    · cases under : p.startsWith top with
      | false =>
        rw [replants.elsewhere p under, known.unknown under, ite_self]
      | true =>
        refine Option.ext fun node => ?_
        rw [replants.below p under node, reached]
        constructor
        · rintro (⟨k, s, spans, rfl⟩ | ⟨_, _, impossible, _⟩)
          · obtain ⟨⟨member, kept⟩, rfl, rfl⟩ := standing.spans_only known spans
            rw [if_neg (by simpa using kept)]
            exact known.node member
          · cases impossible
        · intro noted
          split at noted
          · cases noted
          · next kept =>
            obtain ⟨member, same⟩ := known.of_node noted
            exact .inl ⟨_, _, standing.spans known member (by simpa using kept), same⟩

end

/-! ## The known tree restored -/

section

variable [DecidableEq ν] {paths : List EnvPath} {owner : Local κ ν} {vaults start : Vaults κ ν} {top : EnvPath}

omit [DecidableEq ν] in
/-- How things stand before the first repair, when some vaults are there no more. -/
theorem Known.standing {keyOf : EnvPath → κ} (known : Known paths owner vaults top keyOf)
    (gone : ∀ v, start v = vaults v ∨ start v = none) {calls : List EnvPath}
    (missing : ∀ p, p ∈ calls ↔ ∃ node, owner.tree p = some node ∧ start node.vaultId = none) :
    Standing paths owner top keyOf start [] calls := by
  have still : ∀ {v record}, start v = some record → vaults v = some record := by
    intro v record there
    obtain same | lost := gone v
    · rw [← same, there]
    · rw [lost] at there
      cases there
  constructor
  case absent =>
    intro p member none
    exact .inl ((missing p).mpr ⟨_, known.node member, none⟩)
  case waiting =>
    intro p member
    obtain ⟨node, noted, none⟩ := (missing p).mp member
    obtain ⟨listed, rfl⟩ := known.of_node noted
    exact ⟨listed, none⟩
  case lists =>
    intro p member strict _ q above record there
    exact known.lists p member strict q above record (still there)
  case leads =>
    intro q member record there e listed p made k key
    obtain ⟨listedToo, same⟩ := known.leads q member record (still there) e listed p made k key
    exact ⟨listedToo, List.not_mem_nil, same⟩
  case lost =>
    intro l member
    cases member

omit [DecidableEq ν] in
/-- The known nodes whose vault is missing. -/
theorem Known.mem_missing {keyOf : EnvPath → κ} (known : Known paths owner vaults top keyOf) (p : EnvPath) :
    p ∈ paths.filter (fun p => (start (NodeKeys.vaultId (keyOf p))).isNone) ↔
      ∃ node, owner.tree p = some node ∧ start node.vaultId = none := by
  rw [List.mem_filter, Option.isNone_iff_eq_none]
  constructor
  · rintro ⟨member, missing⟩
    exact ⟨_, known.node member, missing⟩
  · rintro ⟨node, noted, missing⟩
    obtain ⟨member, rfl⟩ := known.of_node noted
    exact ⟨member, missing⟩

/-- A later rediscovery changes nothing of what is known, nor of the records, whatever vaults
are missing: a node that does not open is kept, with what is known below it. -/
theorem Known.rediscovered {keyOf : EnvPath → κ} (known : Known paths owner vaults top keyOf)
    (gone : ∀ v, start v = vaults v ∨ start v = none) {nodes : Nat} {after : Local κ ν} {walk : Walk κ ν}
    (found : discover nodes owner start top = .ok (after, walk)) : after = owner ∧ walk.vaults = start := by
  have standing := known.standing gone known.mem_missing
  obtain ⟨list, key, chains, ends, found⟩ := discover_ok found
  obtain rfl := Except.ok.inj ((known.chain_top start).symm.trans chains)
  obtain rfl := Except.ok.inj ends
  obtain ⟨rfl, walks⟩ := discoverFrom_ok found
  have opens : (start (NodeKeys.vaultId (keyOf top))).isSome = true := by
    cases there : start (NodeKeys.vaultId (keyOf top)) with
    | some record => rfl
    | none =>
      have closed : openNode owner start ⟨top, keyOf top, (owner.tree top).any (·.isSealed), none⟩ = none :=
        openNode_missing there (.inl rfl)
      cases nodes with
      | zero => cases walks
      | succ nodes =>
        rw [walkFrom, closed] at walks
        simp at walks
  have quiet : Unheld owner start top (keyOf top) ((owner.tree top).any (·.isSealed)) := by
    intro p k s spans _ _ held stored
    obtain ⟨⟨member, _⟩, rfl, _⟩ := standing.spans_only known spans
    rw [known.stored p member held stored]
  rw [← walkReading_all] at walks
  have begins := spanning_begins start top (keyOf top) ((owner.tree top).any (·.isSealed))
  have spanning := walkReading_spanning quiet opens begins walks
  have replants := spanning.replants
  refine ⟨?_, spanning.same⟩
  have reached : ∀ p, p.startsWith top = true → p ∈ paths →
      Spans start top (keyOf top) ((owner.tree top).any (·.isSealed)) p (keyOf p) ((owner.tree p).any (·.isSealed)) ∨
        ∃ u ∈ walk.unreachable, p ≠ u ∧ p.startsWith u = true := by
    intro p under member
    induction p, under using EnvPath.under_induction with
    | root => exact .inl .root
    | child q p under above inductionHypothesis =>
      have made := EnvPath.child_parent above
      have strict := EnvPath.child_ne_root made under
      obtain spans | ⟨u, missed, lower, beneath⟩ := inductionHypothesis (known.closed p member strict q above)
      · by_cases there : start (NodeKeys.vaultId (keyOf q)) = none
        · exact .inr ⟨q, (replants.unopened q).mpr ⟨_, _, spans, there⟩, EnvPath.child_ne_root made q.startsWith_refl,
            EnvPath.startsWith_child made⟩
        · exact .inl (standing.spans_child member strict List.not_mem_nil above spans there)
      · exact .inr ⟨u, missed, EnvPath.child_ne_root made beneath,
          EnvPath.startsWith_trans (EnvPath.startsWith_child made) beneath⟩
  have same : replanted owner.tree top walk = owner.tree := by
    funext p
    cases under : p.startsWith top with
    | false => exact replants.elsewhere p under
    | true =>
      refine Option.ext fun node => ?_
      rw [replants.below p under node]
      constructor
      · rintro (⟨k, s, spans, rfl⟩ | ⟨noted, _⟩)
        · obtain ⟨⟨member, _⟩, rfl, rfl⟩ := standing.spans_only known spans
          exact known.node member
        · exact noted
      · intro noted
        obtain ⟨member, same⟩ := known.of_node noted
        obtain spans | below := reached p under member
        · exact .inl ⟨_, _, spans, same⟩
        · exact .inr ⟨noted, below⟩
  rw [same]

/-- What repairs do: each that is not of a node at or below one reported as lost before
succeeds; a rediscovery from the topmost node finds the known nodes, each at its vault, but
those at or below a lost one; and the vaults that are there keep their records. -/
structure Restores (paths : List EnvPath) (owner : Local κ ν) (start : Vaults κ ν) (top : EnvPath) (calls : List EnvPath) :
    Prop where
  succeeds : ∀ before p after, calls = before ++ p :: after →
    (∀ l ∈ lostBy (repairAll paths owner start before).1, p.startsWith l = false) →
      ∃ result, envRepair paths owner (repairAll paths owner start before).2 p = .ok result
  finds : ∃ bound, ∀ nodes, bound ≤ nodes → ∃ after walk,
    discover nodes owner (repairAll paths owner start calls).2 top = .ok (after, walk) ∧
      ∀ p, after.tree p =
        if (lostBy (repairAll paths owner start calls).1).any (p.startsWith ·) then none else owner.tree p
  keeps : ∀ v record, start v = some record → (repairAll paths owner start calls).2 v = some record

/-- Repairs of all missing vaults of a known tree restore it, whatever is missing. -/
theorem Known.restores {keyOf : EnvPath → κ} (known : Known paths owner vaults top keyOf)
    (gone : ∀ v, start v = vaults v ∨ start v = none) {calls : List EnvPath}
    (missing : ∀ p, p ∈ calls ↔ ∃ node, owner.tree p = some node ∧ start node.vaultId = none)
    (order : calls.Pairwise fun p q => p.startsWith q = false) : Restores paths owner start top calls := by
  have standing := known.standing gone missing
  constructor
  case succeeds =>
    rintro before p after rfl kept
    obtain ⟨stands, _⟩ := Standing.repairAll known standing order
    rw [List.nil_append] at stands
    have later := List.pairwise_append.mp order
    exact stands.repairs known (List.pairwise_cons.mp later.2.1).1 kept
  case finds =>
    rw [← List.append_nil calls] at standing order
    obtain ⟨stands, _⟩ := Standing.repairAll known standing order
    exact stands.discovers known
  case keeps =>
    intro v record there
    have waiting := standing.waiting
    rw [← List.append_nil calls] at standing order
    obtain ⟨_, same⟩ := Standing.repairAll known standing order
    rw [same v ?_, there]
    rintro p member rfl
    rw [(waiting p member).2] at there
    cases there

end

/-! ## A sealed key between two missing vaults -/

section Expired

def acmeProdEu : EnvPath := ⟨["acme", "prod", "eu"], by decide, by decide⟩

def acmeProdEuDb : EnvPath := ⟨["acme", "prod", "eu", "db"], by decide, by decide⟩

/-- A server with a project of four nodes, one below the other; the third was rekeyed. -/
def europe : Vaults PlainKey PlainKey := fun key =>
  if key = ⟨acme, 0⟩ then some ⟨[⟨"prod", .derived⟩], List.nodup_singleton _⟩
  else if key = ⟨acmeProd, 0⟩ then some ⟨[⟨"eu", .sealed (some ⟨acmeProdEu, 1⟩)⟩], List.nodup_singleton _⟩
  else if key = ⟨acmeProdEu, 1⟩ then some ⟨[⟨"db", .derived⟩], List.nodup_singleton _⟩
  else if key = ⟨acmeProdEuDb, 1⟩ then some ⟨[], List.nodup_nil⟩
  else none

/-- The server when the vaults of some nodes expired. -/
def expired (nodes : List EnvPath) : Vaults PlainKey PlainKey := fun key => if key.node ∈ nodes then none else europe key

/-- An owner that holds the project's key. -/
def founder : Local PlainKey PlainKey where
  server := "vault.example"
  held := [acme]
  tree p := if p = acme then some ⟨⟨acme, 0⟩, false⟩ else none
  keys p := if p = acme then some ⟨acme, 0⟩ else none

theorem get_lone {only e : ChildEntry PlainKey} {seg : String} {distinct : ([only].map (·.seg)).Nodup}
    (listed : ChildrenRecord.get ⟨[only], distinct⟩ seg = some e) : e = only ∧ e.seg = seg :=
  ⟨List.mem_singleton.mp (List.mem_of_find?_eq_some listed), ChildrenRecord.get_seg listed⟩

theorem europe_homed : Homed PlainKey.node founder.keys europe where
  derived := plain_derived
  stored := by
    intro p s stored
    change (if p = acme then some (⟨acme, 0⟩ : PlainKey) else none) = some s at stored
    split at stored
    · next here =>
      obtain rfl := Option.some.inj stored
      exact here.symm
    · cases stored
  records := by
    intro k record seg e s p there listed opens made
    change europe k = some record at there
    apply EnvPath.ext
    rw [EnvPath.child_segments made]
    unfold europe at there
    split_ifs at there with first second third fourth
    · subst first
      cases there
      obtain ⟨rfl, rfl⟩ := get_lone listed
      cases opens
      rfl
    · subst second
      cases there
      obtain ⟨rfl, rfl⟩ := get_lone listed
      cases opens
      rfl
    · subst third
      cases there
      obtain ⟨rfl, rfl⟩ := get_lone listed
      cases opens
      rfl
    · cases there
      cases listed

/-- The project as that owner knows it. -/
def knower : Local PlainKey PlainKey :=
  { founder with
    tree p :=
      if p = acme then some ⟨⟨acme, 0⟩, false⟩
      else if p = acmeProd then some ⟨⟨acmeProd, 0⟩, false⟩
      else if p = acmeProdEu then some ⟨⟨acmeProdEu, 1⟩, true⟩
      else if p = acmeProdEuDb then some ⟨⟨acmeProdEuDb, 1⟩, false⟩
      else none }

def fourPaths : List EnvPath := [acme, acmeProd, acmeProdEu, acmeProdEuDb]

theorem knower_tree {p : EnvPath} {node : TreeNode PlainKey} (noted : knower.tree p = some node) :
    p ∈ fourPaths ∧ node.vaultId.node = p ∧ (europe node.vaultId).isSome = true := by
  change (if p = acme then _ else _) = some node at noted
  split_ifs at noted with first second third fourth
  · subst first
    cases noted
    decide
  · subst second
    cases noted
    decide
  · subst third
    cases noted
    decide
  · subst fourth
    cases noted
    decide

theorem knower_knows {p : EnvPath} (member : p ∈ fourPaths) : ∃ node, knower.tree p = some node := by
  simp only [fourPaths, List.mem_cons, List.not_mem_nil, or_false] at member
  obtain rfl | rfl | rfl | rfl := member <;> exact ⟨_, rfl⟩

/-- A rediscovery opens all four nodes. -/
theorem founder_discovers : ∃ walk, discover 5 founder europe acme = .ok (knower, walk) ∧ walk.unreachable = [] ∧
    walk.vaults = europe ∧ Single fourPaths knower acme walk.opened := by
  have found : ∃ walk, discover 5 founder europe acme =
      .ok ({ founder with tree := replanted founder.tree acme walk }, walk) ∧ walk.unreachable = [] ∧ walk.vaults = europe ∧
        walk.opened = [(acmeProdEuDb, ⟨acmeProdEuDb, 1⟩), (acmeProdEu, ⟨acmeProdEu, 1⟩), (acmeProd, ⟨acmeProd, 0⟩),
          (acme, ⟨acme, 0⟩)] ∧
        walk.found = Function.update (Function.update (Function.update (Function.update (fun _ => none)
          acme (some ⟨⟨acme, 0⟩, false⟩)) acmeProd (some ⟨⟨acmeProd, 0⟩, false⟩)) acmeProdEu (some ⟨⟨acmeProdEu, 1⟩, true⟩))
          acmeProdEuDb (some ⟨⟨acmeProdEuDb, 1⟩, false⟩) := ⟨_, rfl, rfl, rfl, rfl, rfl⟩
  obtain ⟨walk, found, whole, same, opened, noted⟩ := found
  have tree : replanted founder.tree acme walk = knower.tree := by
    funext p
    change _ = if p = acme then _ else _
    unfold replanted
    rw [noted, whole]
    by_cases fourth : p = acmeProdEuDb
    · subst fourth
      rfl
    · rw [Function.update_of_ne fourth]
      by_cases third : p = acmeProdEu
      · subst third
        rfl
      · rw [Function.update_of_ne third]
        by_cases second : p = acmeProd
        · subst second
          rfl
        · rw [Function.update_of_ne second]
          by_cases first : p = acme
          · subst first
            rfl
          · rw [Function.update_of_ne first, if_neg first, if_neg second, if_neg third, if_neg fourth]
            change (if _ then (if p = acme then _ else none) else none) = none
            rw [if_neg first, ite_self]
  rw [tree] at found
  refine ⟨walk, found, whole, same, ?_⟩
  constructor
  case listed =>
    intro p
    constructor
    · intro member
      obtain ⟨node, known⟩ := knower_knows member
      rw [known]
      rfl
    · intro known
      obtain ⟨node, known⟩ := Option.isSome_iff_exists.mp known
      exact (knower_tree known).1
  case under => decide
  case topmost => exact List.mem_singleton_self _
  case held =>
    intro h held
    obtain rfl := List.mem_singleton.mp held
    decide
  case current =>
    intro p k member stored held
    change (if p = acme then some (⟨acme, 0⟩ : PlainKey) else none) = some stored at held
    split at held
    · next here =>
      subst here
      obtain rfl := Option.some.inj held
      rw [opened] at member
      revert member
      simp only [List.mem_cons, Prod.mk.injEq, List.not_mem_nil, or_false]
      rintro (⟨impossible, _⟩ | ⟨impossible, _⟩ | ⟨impossible, _⟩ | ⟨_, rfl⟩)
      · exact absurd impossible (by decide)
      · exact absurd impossible (by decide)
      · exact absurd impossible (by decide)
      · rfl
    · cases held

theorem expired_gone (nodes : List EnvPath) (v : PlainKey) : expired nodes v = europe v ∨ expired nodes v = none := by
  unfold expired
  split
  · exact .inr rfl
  · exact .inl rfl

theorem expired_missing {nodes : List EnvPath} (known : ∀ p ∈ nodes, p ∈ fourPaths) (p : EnvPath) :
    p ∈ nodes ↔ ∃ node, knower.tree p = some node ∧ expired nodes node.vaultId = none := by
  constructor
  · intro member
    obtain ⟨node, noted⟩ := knower_knows (known p member)
    have here := (knower_tree noted).2.1
    exact ⟨node, noted, if_pos (here.symm ▸ member)⟩
  · rintro ⟨node, noted, missing⟩
    obtain ⟨_, rfl, there⟩ := knower_tree noted
    unfold expired at missing
    split at missing
    · next member => exact member
    · rw [missing] at there
      cases there

example : lostBy (repairAll fourPaths knower (expired [acme, acmeProd, acmeProdEuDb]) [acme, acmeProd, acmeProdEuDb]).1 =
    [acmeProdEu] := by
  decide

end Expired

end GalataVault.Owner
