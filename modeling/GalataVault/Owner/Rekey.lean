import GalataVault.Owner.Tree

/-!
# Rekeying a node while environments are added below it

A rekey reads the old subtree, parents first, and plans a new vault for each node in it.
It then creates the new vaults, copies the records and writes the new children records,
points the parent at the new root, and deletes the old vaults. Each step is saved at its
end: after an interruption the step that was not saved begins again. Meanwhile other
owners add environments at or below the node.

The state changes by one request at a time, except that the keys a step opens are opened
together. The parent's entry is in no vault of the subtree and is left out, as is what the
owner keeps of its own; a request that fails interrupts the operation it is part of.
-/

namespace GalataVault.Owner

/-! ## Vaults -/

/-- A record's retained versions, oldest first; a tombstone has no value. -/
abbrev Versions (ρ : Type) := List (Option ρ)

/-- What a vault holds, by kind and name, and the children of its node. -/
structure EnvVault (κ α ρ : Type) where
  records : α → Versions ρ
  children : ChildrenRecord κ

namespace ChildrenRecord

variable {κ : Type}

def empty : ChildrenRecord κ := ⟨[], List.nodup_nil⟩

/-- List a child whose key is derived, unless one is listed. -/
def addDerived (record : ChildrenRecord κ) (seg : String) : ChildrenRecord κ :=
  if absent : seg ∈ record.children.map (·.seg) then record
  else
    { children := record.children ++ [⟨seg, .derived⟩]
      distinct := by
        rw [List.map_append, List.nodup_append]
        refine ⟨record.distinct, List.nodup_singleton _, ?_⟩
        rintro a member b listed rfl
        obtain rfl := List.mem_singleton.mp listed
        exact absent member }

theorem get_eq_none_iff {record : ChildrenRecord κ} {seg : String} :
    record.get seg = none ↔ seg ∉ record.children.map (·.seg) := by
  unfold get
  simp [List.find?_eq_none]

theorem mem_of_get {record : ChildrenRecord κ} {seg : String} {e : ChildEntry κ} (found : record.get seg = some e) :
    e ∈ record.children := List.mem_of_find?_eq_some found

/-- What was listed stays listed. -/
theorem get_addDerived_of_some {record : ChildrenRecord κ} {seg other : String} {e : ChildEntry κ}
    (found : record.get other = some e) : (record.addDerived seg).get other = some e := by
  unfold addDerived
  split
  · exact found
  · have member : e ∈ record.children ++ [⟨seg, .derived⟩] := List.mem_append_left _ (mem_of_get found)
    rw [← get_seg found]
    exact get_of_mem member

theorem get_addDerived {record : ChildrenRecord κ} {seg other : String} {e : ChildEntry κ}
    (found : (record.addDerived seg).get other = some e) :
    record.get other = some e ∨ (record.get seg = none ∧ other = seg ∧ e = ⟨seg, .derived⟩) := by
  unfold addDerived at found
  split at found
  · exact .inl found
  · next absent =>
    have seg_other := get_seg found
    rcases List.mem_append.mp (mem_of_get found) with old | new
    · left
      rw [← seg_other]
      exact get_of_mem old
    · obtain rfl := List.mem_singleton.mp new
      exact .inr ⟨get_eq_none_iff.mpr absent, seg_other.symm, rfl⟩

theorem get_addDerived_self {record : ChildrenRecord κ} {seg : String} (absent : record.get seg = none) :
    (record.addDerived seg).get seg = some ⟨seg, .derived⟩ := by
  have unlisted := get_eq_none_iff.mp absent
  have member : (⟨seg, .derived⟩ : ChildEntry κ) ∈ (record.addDerived seg).children := by
    unfold addDerived
    rw [dif_neg unlisted]
    exact List.mem_append_right _ List.mem_cons_self
  exact get_of_mem member

end ChildrenRecord

variable {κ ν α ρ : Type}

/-- The vaults that exist. -/
abbrev Hosted (κ ν α ρ : Type) := ν → Option (EnvVault κ α ρ)

def EnvVault.empty : EnvVault κ α ρ := ⟨fun _ => [], .empty⟩

/-- The versions a copy writes: a leading tombstone has nothing to delete. -/
def copied (versions : Versions ρ) : Versions ρ := versions.dropWhile (·.isNone)

/-- Copy versions of the old vault, so many of each record, after those that were copied
before. -/
def copyFrom (written : α → Nat) (new old : EnvVault κ α ρ) : EnvVault κ α ρ :=
  { new with records := fun name =>
      new.records name ++ ((copied (old.records name)).drop (new.records name).length).take (written name) }

/-- Copy all of them. -/
def copyAll (new old : EnvVault κ α ρ) : EnvVault κ α ρ :=
  { new with records := fun name => new.records name ++ (copied (old.records name)).drop (new.records name).length }

/-- The segments of the nodes directly below one. -/
def directChildren (nodes : List (List String)) (rel : List String) : List String :=
  nodes.filterMap fun r => if r.dropLast = rel then r.getLast? else none

/-! ## The rekey -/

/-- The last step that was saved. -/
inductive RekeyStep where
  | planned
  | created
  | migrated
  | linked
  | retired
deriving DecidableEq

/-- Where a rekey is. A planned node is its path below the root and its old vault's id. -/
inductive Stage (κ ν : Type) where
  | idle
  /-- The nodes to read, and those that were read. -/
  | planning (queue : List (List String × κ)) (read : List (List String × ν))
  /-- The nodes that the step has still to do, each with its old key if the step opened
  one; none before the step begins. -/
  | running (nodes : List (List String × ν)) (step : RekeyStep) (work : Option (List (List String × Option κ)))
  | finished (nodes : List (List String × ν))

section

variable [NodeKeys κ ν]

/-- The key of a node below a root whose keys are all derived. -/
def derive (root : κ) (rel : List String) : κ := rel.foldl NodeKeys.child root

/-- The key that children records lead to from a root. -/
def walk (vaults : Hosted κ ν α ρ) : κ → List String → Option κ
  | key, [] => some key
  | key, seg :: rest => do
    let vault ← vaults (NodeKeys.vaultId key)
    let e ← vault.children.get seg
    let next ← e.mode.key key seg
    walk vaults next rest

/-- The keys of the children that are listed; none if one does not open. -/
def childKeys (rel : List String) (key : κ) : List (ChildEntry κ) → Option (List (List String × κ))
  | [] => some []
  | e :: rest => do
    let child ← e.mode.key key e.seg
    let others ← childKeys rel key rest
    some ((rel ++ [e.seg], child) :: others)

/-- A node's key, opened from the root's down; none if a vault on the way does not exist. -/
def openedKey (vaults : Hosted κ ν α ρ) : κ → List String → Except OwnerError (Option κ)
  | key, [] => .ok (some key)
  | key, seg :: rest =>
    match vaults (NodeKeys.vaultId key) with
    | none => .ok none
    | some vault =>
      match vault.children.get seg with
      | none => .error .notListed
      | some e =>
        match e.mode.key key seg with
        | none => .error .sealedKey
        | some next => openedKey vaults next rest

/-- The planned nodes' old keys; an error if one is not that of the vault that was
planned. -/
def oldKeys [DecidableEq ν] (vaults : Hosted κ ν α ρ) (root : κ) :
    List (List String × ν) → Except OwnerError (List (List String × Option κ))
  | [] => .ok []
  | (rel, planned) :: rest => do
    let key ← openedKey vaults root rel
    if key.any (NodeKeys.vaultId · ≠ planned) then .error .changed
    else
      let others ← oldKeys vaults root rest
      .ok ((rel, key) :: others)

/-- What one owner's rekey and the other owners' additions have come to. -/
structure Rekeying (κ ν α ρ : Type) where
  vaults : Hosted κ ν α ρ
  stage : Stage κ ν
  /-- The additions under way: the parent's path below the node, its key, the segment, and
  whether the vault was created. -/
  adding : List (List String × κ × String × Bool)
  /-- The environments whose addition returned: their paths and keys. -/
  added : List (List String × κ)

/-- Create a vault, unless it exists. -/
def create [DecidableEq ν] (vaults : Hosted κ ν α ρ) (v : ν) : Hosted κ ν α ρ :=
  if (vaults v).isSome then vaults else Function.update vaults v (some .empty)

/-- One request. The one that lists an added environment carries its parent's key and its
segment. -/
inductive Request [DecidableEq ν] (old new : κ) : Rekeying κ ν α ρ → Option (κ × String) → Rekeying κ ν α ρ → Prop where
  | begin {s} : s.stage = .idle → Request old new s none { s with stage := .planning [([], old)] [] }
  | read {s rel key rest done vault below} : s.stage = .planning ((rel, key) :: rest) done →
      s.vaults (NodeKeys.vaultId key) = some vault → childKeys rel key vault.children.children = some below →
      Request old new s none { s with stage := .planning (rest ++ below) (done ++ [(rel, NodeKeys.vaultId key)]) }
  | plan {s done} : s.stage = .planning [] done → Request old new s none { s with stage := .running done .planned none }
  | resume {s nodes step work} : s.stage = .running nodes step work →
      Request old new s none { s with stage := .running nodes step none }
  | toCreate {s nodes} : s.stage = .running nodes .planned none →
      Request old new s none
        { s with stage := .running nodes .planned (some (nodes.reverse.map fun node => (node.1, none))) }
  | toOpen {s nodes step keys} : s.stage = .running nodes step none → step = .created ∨ step = .linked →
      oldKeys s.vaults old nodes = .ok keys →
      Request old new s none { s with stage := .running nodes step (some keys.reverse) }
  | create {s nodes rel key rest} : s.stage = .running nodes .planned (some ((rel, key) :: rest)) →
      Request old new s none
        { s with
          vaults := create s.vaults (NodeKeys.vaultId (derive new rel))
          stage := .running nodes .planned (some rest) }
  | copy {s nodes rel key rest oldVault newVault written} :
      s.stage = .running nodes .created (some ((rel, some key) :: rest)) →
      s.vaults (NodeKeys.vaultId key) = some oldVault → s.vaults (NodeKeys.vaultId (derive new rel)) = some newVault →
      Request old new s none
        { s with
          vaults := Function.update s.vaults (NodeKeys.vaultId (derive new rel)) (some (copyFrom written newVault oldVault)) }
  | migrate {s nodes rel key rest oldVault newVault} :
      s.stage = .running nodes .created (some ((rel, some key) :: rest)) →
      s.vaults (NodeKeys.vaultId key) = some oldVault → s.vaults (NodeKeys.vaultId (derive new rel)) = some newVault →
      Request old new s none
        { s with
          vaults := Function.update s.vaults (NodeKeys.vaultId (derive new rel))
            (some { copyAll newVault oldVault with
              children := (directChildren (nodes.map (·.1)) rel).foldl ChildrenRecord.addDerived newVault.children })
          stage := .running nodes .created (some rest) }
  | retire {s nodes rel key rest} : s.stage = .running nodes .linked (some ((rel, key) :: rest)) →
      Request old new s none
        { s with
          vaults := match key with
            | some key => Function.update s.vaults (NodeKeys.vaultId key) none
            | none => s.vaults
          stage := .running nodes .linked (some rest) }
  | toCreated {s nodes} : s.stage = .running nodes .planned (some []) →
      Request old new s none { s with stage := .running nodes .created none }
  | toMigrated {s nodes} : s.stage = .running nodes .created (some []) →
      Request old new s none { s with stage := .running nodes .migrated none }
  | toLinked {s nodes} : s.stage = .running nodes .migrated none →
      Request old new s none { s with stage := .running nodes .linked none }
  | toRetired {s nodes} : s.stage = .running nodes .linked (some []) →
      Request old new s none { s with stage := .running nodes .retired none }
  | finish {s nodes} : s.stage = .running nodes .retired none → Request old new s none { s with stage := .finished nodes }
  | addOpens {s rel parent vault seg} : walk s.vaults old rel = some parent ∨ walk s.vaults new rel = some parent →
      s.vaults (NodeKeys.vaultId parent) = some vault → vault.children.get seg = none →
      Request old new s none { s with adding := (rel, parent, seg, false) :: s.adding }
  | addCreates {s rel parent seg} : (rel, parent, seg, false) ∈ s.adding →
      Request old new s none
        { s with
          vaults := Owner.create s.vaults (NodeKeys.vaultId (NodeKeys.child parent seg))
          adding := (rel, parent, seg, true) :: s.adding }
  | addLists {s rel parent seg vault} : (rel, parent, seg, true) ∈ s.adding →
      s.vaults (NodeKeys.vaultId parent) = some vault →
      Request old new s (some (parent, seg))
        { s with
          vaults := Function.update s.vaults (NodeKeys.vaultId parent)
            (some { vault with children := vault.children.addDerived seg })
          added := (rel ++ [seg], NodeKeys.child parent seg) :: s.added }

end

end GalataVault.Owner
