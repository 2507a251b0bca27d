import Mathlib.Data.List.Basic
import Mathlib.Data.List.Nodup
import Mathlib.Logic.Function.Basic

/-!
# An owner's tree of environments

A project is a tree of environments, each with a key and a vault of its own. A child's
key is derived from its parent's, or, after a rekey, random and sealed in its parent's
children record. An owner holds the keys of some nodes, and remembers the tree: which
vault each node has, and whether its key is sealed.

Keys are abstract: a key derives the key of each child, and owns one vault. What a
sealed key opens to is written next to it. The server is what its vaults' children
records say; it answers every request, and between two requests of one operation nothing
else changes it.
-/

namespace GalataVault.Owner

/-- Keys, and the vaults they own. -/
class NodeKeys (κ : Type) (ν : outParam Type) where
  child : κ → String → κ
  /-- The vault id of the key's owner. -/
  vaultId : κ → ν

/-! ## Paths -/

def maxDepth : Nat := 4

/-- One to `maxDepth` segments; the first names the project. -/
structure EnvPath where
  segments : List String
  nonempty : segments ≠ []
  bounded : segments.length ≤ maxDepth
deriving DecidableEq

namespace EnvPath

theorem ext {left right : EnvPath} (same : left.segments = right.segments) : left = right := by
  cases left
  cases right
  cases same
  rfl

def depth (path : EnvPath) : Nat := path.segments.length

def last (path : EnvPath) : String := path.segments.getLast path.nonempty

def parent (path : EnvPath) : Option EnvPath :=
  if long : 1 < path.segments.length then
    some ⟨path.segments.dropLast, by rw [← List.length_pos_iff, List.length_dropLast]; omega,
      by rw [List.length_dropLast]; exact Nat.le_trans (Nat.sub_le _ _) path.bounded⟩
  else none

def child (path : EnvPath) (seg : String) : Option EnvPath :=
  if short : path.segments.length < maxDepth then
    some ⟨path.segments ++ [seg], by simp, by rw [List.length_append]; exact short⟩
  else none

/-- Whether the path is another or lies beneath it. -/
def startsWith (path other : EnvPath) : Bool := other.segments.isPrefixOf path.segments

theorem child_segments {path p : EnvPath} {seg : String} (made : path.child seg = some p) :
    p.segments = path.segments ++ [seg] := by
  unfold child at made
  split at made
  · obtain rfl := Option.some.inj made
    rfl
  · cases made

theorem child_of_segments {path p : EnvPath} {seg : String} (same : p.segments = path.segments ++ [seg]) :
    path.child seg = some p := by
  have bounded := p.bounded
  rw [same, List.length_append] at bounded
  unfold child
  rw [dif_pos (show path.segments.length < maxDepth from bounded)]
  exact congrArg some (ext same.symm)

/-- A path is the child of one path only. -/
theorem child_injective {path other p : EnvPath} {seg seg' : String} (made : path.child seg = some p)
    (again : other.child seg' = some p) : path = other ∧ seg = seg' := by
  have same := (child_segments made).symm.trans (child_segments again)
  obtain ⟨front, last⟩ := List.append_inj' same rfl
  exact ⟨ext front, List.head_eq_of_cons_eq last⟩

theorem child_last {path p : EnvPath} {seg : String} (made : path.child seg = some p) : p.last = seg := by
  have same := child_segments made
  unfold last
  simp [same]

theorem startsWith_iff {path other : EnvPath} : path.startsWith other = true ↔ other.segments <+: path.segments :=
  List.isPrefixOf_iff_prefix

theorem startsWith_refl (path : EnvPath) : path.startsWith path = true := startsWith_iff.mpr (List.prefix_refl _)

theorem startsWith_trans {a b c : EnvPath} (first : a.startsWith b = true) (second : b.startsWith c = true) :
    a.startsWith c = true := startsWith_iff.mpr ((startsWith_iff.mp second).trans (startsWith_iff.mp first))

theorem startsWith_child {path p : EnvPath} {seg : String} (made : path.child seg = some p) :
    p.startsWith path = true := by
  rw [startsWith_iff, child_segments made]
  exact List.prefix_append _ _

theorem startsWith_antisymm {a b : EnvPath} (first : a.startsWith b = true) (second : b.startsWith a = true) : a = b :=
  ext ((startsWith_iff.mp second).eq_of_length_le (startsWith_iff.mp first).length_le)

/-- Of two paths above one, one is above the other. -/
theorem startsWith_total {p a b : EnvPath} (one : p.startsWith a = true) (two : p.startsWith b = true) :
    a.startsWith b = true ∨ b.startsWith a = true := by
  rw [startsWith_iff, startsWith_iff]
  exact (List.prefix_or_prefix_of_prefix (startsWith_iff.mp two) (startsWith_iff.mp one))

/-- Beneath a path, but not the path: a child is there, and its parent. -/
theorem startsWith_parent {path p root : EnvPath} {seg : String} (made : path.child seg = some p)
    (under : p.startsWith root = true) : p = root ∨ path.startsWith root = true := by
  rw [startsWith_iff, child_segments made] at under
  rw [startsWith_iff]
  rcases List.prefix_concat_iff.mp under with same | above
  · exact .inl (ext ((child_segments made).trans same.symm))
  · exact .inr above

end EnvPath

/-! ## Children records -/

inductive ChildMode (κ : Type) where
  /-- The key is derived from the parent's. -/
  | derived
  /-- The key is sealed to the parent's owner, with what it opens to there, if it
  opens. -/
  | sealed (opens : Option κ)
deriving DecidableEq

structure ChildEntry (κ : Type) where
  seg : String
  mode : ChildMode κ
deriving DecidableEq

/-- A node's children, each once. -/
structure ChildrenRecord (κ : Type) where
  children : List (ChildEntry κ)
  distinct : (children.map (·.seg)).Nodup

namespace ChildrenRecord

variable {κ : Type}

def get (record : ChildrenRecord κ) (seg : String) : Option (ChildEntry κ) := record.children.find? (·.seg = seg)

/-- Point the entry of a child at a sealed key, or list the child. -/
def sealChild (record : ChildrenRecord κ) (seg : String) (key : κ) : ChildrenRecord κ where
  children :=
    if seg ∈ record.children.map (·.seg) then
      record.children.map fun e => if e.seg = seg then ⟨seg, .sealed (some key)⟩ else e
    else record.children ++ [⟨seg, .sealed (some key)⟩]
  distinct := by
    split
    · rw [List.map_map, show ((fun e : ChildEntry κ => e.seg) ∘ fun e => if e.seg = seg then ⟨seg, .sealed (some key)⟩ else e) =
        fun e => e.seg from ?_]
      · exact record.distinct
      · funext e
        by_cases same : e.seg = seg <;> simp [same]
    · next absent =>
      rw [List.map_append, List.nodup_append]
      refine ⟨record.distinct, List.nodup_singleton _, ?_⟩
      rintro a member b listed rfl
      obtain rfl := List.mem_singleton.mp listed
      exact absent member

theorem get_of_mem {record : ChildrenRecord κ} {e : ChildEntry κ} (member : e ∈ record.children) :
    record.get e.seg = some e := by
  have distinct := record.distinct
  unfold get
  revert member distinct
  induction record.children with
  | nil => intro member; cases member
  | cons first rest inductionHypothesis =>
    intro member distinct
    rw [List.map_cons, List.nodup_cons] at distinct
    rcases List.mem_cons.mp member with rfl | later
    · simp
    · have other : first.seg ≠ e.seg := fun same => distinct.1 (same ▸ List.mem_map_of_mem later)
      rw [List.find?_cons_of_neg (by simpa using other)]
      exact inductionHypothesis later distinct.2

theorem get_seg {record : ChildrenRecord κ} {seg : String} {e : ChildEntry κ} (found : record.get seg = some e) :
    e.seg = seg := by
  simpa using List.find?_some found

theorem get_sealChild_self (record : ChildrenRecord κ) (seg : String) (key : κ) :
    (record.sealChild seg key).get seg = some ⟨seg, .sealed (some key)⟩ := by
  have member : (⟨seg, .sealed (some key)⟩ : ChildEntry κ) ∈ (record.sealChild seg key).children := by
    unfold sealChild
    dsimp only
    split
    · next present =>
      obtain ⟨e, listed, rfl⟩ := List.mem_map.mp present
      exact List.mem_map.mpr ⟨e, listed, if_pos rfl⟩
    · simp
  exact get_of_mem member

theorem get_sealChild_other (record : ChildrenRecord κ) {seg other : String} (key : κ) (different : other ≠ seg) :
    (record.sealChild seg key).get other = record.get other := by
  unfold sealChild get
  dsimp only
  split
  · induction record.children with
    | nil => rfl
    | cons first rest inductionHypothesis =>
      rw [List.map_cons, List.find?_cons, List.find?_cons, inductionHypothesis]
      by_cases here : first.seg = seg
      · simp [here, Ne.symm different]
      · simp [here]
  · rw [List.find?_append]
    simp [Ne.symm different]

end ChildrenRecord

/-! ## The server and the owner -/

section

variable {κ ν : Type}

/-- The vaults that exist, with their children records. -/
abbrev Vaults (κ ν : Type) := ν → Option (ChildrenRecord κ)

/-- A known environment's vault. -/
structure TreeNode (ν : Type) where
  vaultId : ν
  /-- Its key is sealed in its parent's children record rather than derived. -/
  isSealed : Bool
deriving DecidableEq

/-- What an owner keeps of a project, and the keys its key store holds. -/
structure Local (κ ν : Type) where
  server : String
  held : List EnvPath
  tree : EnvPath → Option (TreeNode ν)
  keys : EnvPath → Option κ

/-- Why an operation failed. -/
inductive OwnerError where
  | unknownPath
  /-- No key is held for the node or any above it, or the held key is missing. -/
  | noKey
  | vaultNotFound
  /-- The parent's children record no longer lists the child. -/
  | notListed
  /-- A sealed key that does not open. -/
  | sealedKey
  /-- A node's vault is not the one that a rekey planned to move. -/
  | changed
  | invalidPath
  | serverMismatch
  /-- Not an outcome of the source: the nodes a walk was followed for are used up. -/
  | unfinished
deriving DecidableEq

namespace Local

/-- Of two paths the deeper one, the later one if they are as deep. -/
def deeper (deepest : Option EnvPath) (h : EnvPath) : Option EnvPath :=
  if deepest.all (·.depth ≤ h.depth) then some h else deepest

/-- The deepest held path at or above a path. -/
def heldRootFor (owner : Local κ ν) (path : EnvPath) : Option EnvPath :=
  (owner.held.filter fun h => path.startsWith h).foldl deeper none

def knows (owner : Local κ ν) (path : EnvPath) : Bool := (owner.tree path).isSome

end Local

variable [NodeKeys κ ν]

def ChildMode.isSealed : ChildMode κ → Bool
  | .derived => false
  | .sealed _ => true

/-- The key of a child as its entry has it. -/
def ChildMode.key (parent : κ) (seg : String) : ChildMode κ → Option κ
  | .derived => some (NodeKeys.child parent seg)
  | .sealed opens => opens

/-! ## Chains -/

/-- A child's key, from its parent's. -/
def nextKey (vaults : Vaults κ ν) (tree : EnvPath → Option (TreeNode ν)) (key : κ) (seg : String) (child : EnvPath) :
    Except OwnerError κ :=
  if (tree child).any (·.isSealed) then
    match vaults (NodeKeys.vaultId key) with
    | none => .error .vaultNotFound
    | some record =>
      match record.get seg with
      | none => .error .notListed
      | some entry =>
        match entry.mode.key key seg with
        | some k => .ok k
        | none => .error .sealedKey
  else .ok (NodeKeys.child key seg)

/-- The keys from a node down along segments, both ends included. -/
def chainFrom (vaults : Vaults κ ν) (tree : EnvPath → Option (TreeNode ν)) :
    EnvPath → κ → List String → Except OwnerError (List (EnvPath × κ))
  | here, key, [] => .ok [(here, key)]
  | here, key, seg :: rest =>
    match here.child seg with
    | none => .error .invalidPath
    | some child => do
      let next ← nextKey vaults tree key seg child
      let below ← chainFrom vaults tree child next rest
      pure ((here, key) :: below)

/-- The keys from the deepest held ancestor down to a path. -/
def chain (owner : Local κ ν) (vaults : Vaults κ ν) (path : EnvPath) : Except OwnerError (List (EnvPath × κ)) :=
  match owner.heldRootFor path with
  | none => .error .noKey
  | some root =>
    match owner.keys root with
    | none => .error .noKey
    | some key => chainFrom vaults owner.tree root key (path.segments.drop root.depth)

/-- The key a chain ends in. -/
def chainEnd (keys : List (EnvPath × κ)) : Except OwnerError κ :=
  match keys.getLast? with
  | some (_, key) => .ok key
  | none => .error .noKey

/-! ## Rediscovery -/

/-- A node that is to be visited: its key, whether that is sealed, and its parent's. -/
structure Visit (κ : Type) where
  path : EnvPath
  key : κ
  isSealed : Bool
  parentKey : Option κ

/-- What a rediscovery has found so far. -/
structure Walk (κ ν : Type) where
  vaults : Vaults κ ν
  found : EnvPath → Option (TreeNode ν)
  unreachable : List EnvPath
  /-- The nodes whose vault was opened, and the key it was opened with. -/
  opened : List (EnvPath × κ)

variable [DecidableEq ν]

/-- If another key is held for a node whose own does not open its vault, open the vault
with that, and point the parent's entry at it again. -/
def relink (owner : Local κ ν) (vaults : Vaults κ ν) (visit : Visit κ) : Option (κ × Vaults κ ν) := do
  let parentKey ← visit.parentKey
  let _ ← visit.path.parent
  let held ← owner.keys visit.path
  if NodeKeys.vaultId held = NodeKeys.vaultId visit.key then none
  else
    let _ ← vaults (NodeKeys.vaultId held)
    match vaults (NodeKeys.vaultId parentKey) with
    | some record =>
      some (held, Function.update vaults (NodeKeys.vaultId parentKey) (some (record.sealChild visit.path.last held)))
    | none => some (held, vaults)

/-- Open a node's vault, with its own key or the one that is held for it. -/
def openNode (owner : Local κ ν) (vaults : Vaults κ ν) (visit : Visit κ) : Option (κ × Bool × Vaults κ ν) :=
  match vaults (NodeKeys.vaultId visit.key) with
  | some _ => some (visit.key, visit.isSealed, vaults)
  | none => (relink owner vaults visit).map fun (held, relinked) => (held, true, relinked)

/-- What is to be visited for an entry of an opened node; nothing if the child is too
deep, or its key does not open. -/
def visitOf (path : EnvPath) (key : κ) (e : ChildEntry κ) : Option (Visit κ) :=
  match path.child e.seg with
  | none => none
  | some child => (e.mode.key key e.seg).map fun k => ⟨child, k, e.mode.isSealed, some key⟩

/-- The children that are to be visited below an opened node. -/
def visitsBelow (path : EnvPath) (key : κ) (record : ChildrenRecord κ) : List (Visit κ) :=
  record.children.filterMap (visitOf path key)

/-- Visit what is to be visited, the last found first. -/
def walkFrom (owner : Local κ ν) (root : EnvPath) : Nat → Walk κ ν → List (Visit κ) → Except OwnerError (Walk κ ν)
  | 0, _, _ => .error .unfinished
  | _ + 1, walk, [] => .ok walk
  | nodes + 1, walk, visit :: rest =>
    match openNode owner walk.vaults visit with
    | none =>
      if visit.path = root then .error .vaultNotFound
      else
        walkFrom owner root nodes
          { walk with
            found := Function.update walk.found visit.path (some ⟨NodeKeys.vaultId visit.key, visit.isSealed⟩)
            unreachable := walk.unreachable ++ [visit.path] } rest
    | some (key, isSealed, vaults) =>
      match vaults (NodeKeys.vaultId key) with
      | none => .error .vaultNotFound
      | some record =>
        walkFrom owner root nodes
          { vaults := vaults
            found := Function.update walk.found visit.path (some ⟨NodeKeys.vaultId key, isSealed⟩)
            unreachable := walk.unreachable
            opened := (visit.path, key) :: walk.opened } ((visitsBelow visit.path key record).reverse ++ rest)

/-- The tree with what was found below a root in place of what was known there. A node
that could not be opened keeps its known descendants. -/
def replanted (tree : EnvPath → Option (TreeNode ν)) (root : EnvPath) (walk : Walk κ ν) : EnvPath → Option (TreeNode ν) :=
  fun p =>
    match walk.found p with
    | some node => some node
    | none =>
      if !p.startsWith root || walk.unreachable.any fun u => p ≠ u && p.startsWith u then tree p else none

/-- Rediscover the subtree under a root from its key alone. -/
def discoverFrom (nodes : Nat) (owner : Local κ ν) (vaults : Vaults κ ν) (root : EnvPath) (key : κ) :
    Except OwnerError (Local κ ν × Walk κ ν) := do
  let rootSealed := (owner.tree root).any (·.isSealed)
  let walk ← walkFrom owner root nodes ⟨vaults, fun _ => none, [], []⟩ [⟨root, key, rootSealed, none⟩]
  pure ({ owner with tree := replanted owner.tree root walk }, walk)

def discover (nodes : Nat) (owner : Local κ ν) (vaults : Vaults κ ν) (root : EnvPath) :
    Except OwnerError (Local κ ν × Walk κ ν) :=
  if owner.knows root then do
    let keys ← chain owner vaults root
    let key ← chainEnd keys
    discoverFrom nodes owner vaults root key
  else .error .unknownPath

/-- Rediscover below each held path in turn. What is found below a root replaces what was
opened there before. -/
def refreshFrom (nodes : Nat) : Local κ ν → Vaults κ ν → List (EnvPath × κ) → List EnvPath →
    Except OwnerError (Local κ ν × Vaults κ ν × List (EnvPath × κ))
  | owner, vaults, opened, [] => .ok (owner, vaults, opened)
  | owner, vaults, opened, root :: rest =>
    match owner.keys root with
    | none => .error .noKey
    | some key => do
      let (owner, walk) ← discoverFrom nodes owner vaults root key
      refreshFrom nodes owner walk.vaults (opened.filter (fun o => !o.1.startsWith root) ++ walk.opened) rest

def refresh (nodes : Nat) (owner : Local κ ν) (vaults : Vaults κ ν) :
    Except OwnerError (Local κ ν × Vaults κ ν × List (EnvPath × κ)) :=
  if owner.held = [] then .error .noKey else refreshFrom nodes owner vaults [] owner.held

/-- A recovery or delegation kit. -/
structure Kit (κ : Type) where
  path : EnvPath
  server : String
  key : κ

/-- Register a kit's node and rediscover its subtree from its key alone. -/
def importKit (nodes : Nat) (owner : Local κ ν) (vaults : Vaults κ ν) (kit : Kit κ) :
    Except OwnerError (Local κ ν × Walk κ ν) :=
  if owner.server ≠ kit.server then .error .serverMismatch
  else if (owner.tree kit.path).any (fun n => n.vaultId ≠ NodeKeys.vaultId kit.key) then .error .serverMismatch
  else do
    let (owner, walk) ← discoverFrom nodes owner vaults kit.path kit.key
    pure ({ owner with
      keys := Function.update owner.keys kit.path (some kit.key)
      held := if kit.path ∈ owner.held then owner.held else owner.held ++ [kit.path] }, walk)

end

end GalataVault.Owner
