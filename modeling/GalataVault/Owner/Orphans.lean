import GalataVault.Owner.Rekey
import Mathlib.Data.List.Induction

/-!
# Environments that are added while their parent is rekeyed

A rekey moves the nodes that it planned. An environment that is listed in an old vault
before the rekey reads that vault's children record is one of them; one that is listed
there afterwards is in no new children record, and the vault that lists it is deleted.
So every environment is kept as long as none is listed in an old vault that was read.
-/

namespace GalataVault.Owner

variable {κ ν α ρ : Type} [NodeKeys κ ν]

/-- A vault of the new subtree's. -/
def IsNew (new : κ) (v : ν) : Prop := ∃ rel, v = NodeKeys.vaultId (derive new rel)

/-- The new root key is random, and keys do not collide. -/
structure Fresh (old new : κ) (start : Hosted κ ν α ρ) : Prop where
  injective : Function.Injective (NodeKeys.vaultId : κ → ν)
  derive : Function.Injective (derive new)
  child : ∀ (k : κ) seg, IsNew new (NodeKeys.vaultId (NodeKeys.child k seg)) → IsNew new (NodeKeys.vaultId k)
  root : ¬IsNew new (NodeKeys.vaultId old)
  unborn : ∀ v, IsNew new v → start v = none
  listed : ∀ v vault seg e key, start v = some vault → vault.children.get seg = some e → e.mode = .sealed (some key) →
    ¬IsNew new (NodeKeys.vaultId key)

/-- A record's versions as they were at first. -/
def versionsAt (start : Hosted κ ν α ρ) (v : ν) (name : α) : Versions ρ :=
  match start v with
  | some vault => vault.records name
  | none => []

/-- An environment is where the new children records lead, at its own vault or at one
that holds its records. -/
def Kept (start vaults : Hosted κ ν α ρ) (new : κ) (rel : List String) (key : κ) : Prop :=
  ∃ k vault, walk vaults new rel = some k ∧ vaults (NodeKeys.vaultId k) = some vault ∧
    (k = key ∨ ∀ name, vault.records name = copied (versionsAt start (NodeKeys.vaultId key) name))

/-- The vaults whose children records a rekey has read. -/
def Stage.read : Stage κ ν → List (List String × ν)
  | .idle => []
  | .planning _ done => done
  | .running nodes _ _ => nodes
  | .finished nodes => nodes

/-- Nothing more is listed in a vault that was read. -/
def Timely (s : Rekeying κ ν α ρ) (event : Option (κ × String)) : Prop :=
  ∀ parent seg, event = some (parent, seg) → ∀ rel, (rel, NodeKeys.vaultId parent) ∈ s.stage.read →
    ∀ vault, s.vaults (NodeKeys.vaultId parent) = some vault → vault.children.get seg ≠ none

/-! ## Walks -/

section Walks

variable {vaults vaults' : Hosted κ ν α ρ} {old new : κ}

theorem walk_append {key : κ} {first second : List String} :
    walk vaults key (first ++ second) = (walk vaults key first).bind fun k => walk vaults k second := by
  induction first generalizing key with
  | nil => rfl
  | cons seg rest inductionHypothesis =>
    rw [List.cons_append, walk, walk]
    cases there : vaults (NodeKeys.vaultId key) with
    | none => rfl
    | some vault =>
      cases listed : vault.children.get seg with
      | none => simp [listed]
      | some e =>
        cases opens : e.mode.key key seg with
        | none => simp [listed, opens]
        | some next => simp [listed, opens, inductionHypothesis]

/-- The last step of a walk. -/
theorem walk_concat_iff {key last : κ} {rel : List String} {seg : String} :
    walk vaults key (rel ++ [seg]) = some last ↔ ∃ k vault e, walk vaults key rel = some k ∧
      vaults (NodeKeys.vaultId k) = some vault ∧ vault.children.get seg = some e ∧ e.mode.key k seg = some last := by
  rw [walk_append]
  cases walk vaults key rel with
  | none => simp
  | some k => simp [walk, Option.bind_eq_some_iff]

theorem derive_concat (rel : List String) (seg : String) :
    derive new (rel ++ [seg]) = NodeKeys.child (derive new rel) seg := by
  simp [derive]

/-- In the new vaults all children are derived, and no record lists a new key as sealed. -/
structure Base (new : κ) (vaults : Hosted κ ν α ρ) : Prop where
  derived : ∀ v vault seg e, IsNew new v → vaults v = some vault → vault.children.get seg = some e → e.mode = .derived
  listed : ∀ v vault seg e key, vaults v = some vault → vault.children.get seg = some e → e.mode = .sealed (some key) →
    ¬IsNew new (NodeKeys.vaultId key)

/-- The children records of some vaults only grew. -/
def Grows (which : ν → Prop) (vaults vaults' : Hosted κ ν α ρ) : Prop :=
  ∀ v vault, which v → vaults v = some vault → ∃ vault', vaults' v = some vault' ∧
    ∀ seg e, vault.children.get seg = some e → vault'.children.get seg = some e

/-- From the new root a walk is a derivation. -/
theorem Base.walk_new (base : Base new vaults) {rel : List String} {k : κ} (walks : walk vaults new rel = some k) :
    k = derive new rel := by
  induction rel using List.reverseRecOn generalizing k with
  | nil => exact (Option.some.inj walks).symm
  | append_singleton rel seg inductionHypothesis =>
    obtain ⟨parent, vault, e, above, there, listed, opens⟩ := walk_concat_iff.mp walks
    obtain rfl := inductionHypothesis above
    rw [base.derived _ vault seg e ⟨rel, rfl⟩ there listed] at opens
    rw [derive_concat]
    exact (Option.some.inj opens).symm

/-- An entry of an old vault is for an old key. -/
theorem Base.old_child (base : Base new vaults) {start : Hosted κ ν α ρ} (fresh : Fresh old new start) {k next : κ}
    {vault : EnvVault κ α ρ} {seg : String} {e : ChildEntry κ} (isOld : ¬IsNew new (NodeKeys.vaultId k))
    (there : vaults (NodeKeys.vaultId k) = some vault) (listed : vault.children.get seg = some e)
    (opens : e.mode.key k seg = some next) : ¬IsNew new (NodeKeys.vaultId next) := by
  cases mode : e.mode with
  | derived =>
    rw [mode] at opens
    obtain rfl := Option.some.inj opens
    exact fun isNew => isOld (fresh.child k seg isNew)
  | «sealed» opensTo =>
    rw [mode] at opens
    obtain rfl : opensTo = some next := opens
    exact base.listed _ vault seg e next there listed mode

theorem Base.walk_old (base : Base new vaults) {start : Hosted κ ν α ρ} (fresh : Fresh old new start) {rel : List String}
    {k : κ} (walks : walk vaults old rel = some k) : ¬IsNew new (NodeKeys.vaultId k) := by
  induction rel using List.reverseRecOn generalizing k with
  | nil =>
    obtain rfl := Option.some.inj walks
    exact fresh.root
  | append_singleton rel seg inductionHypothesis =>
    obtain ⟨parent, vault, e, above, there, listed, opens⟩ := walk_concat_iff.mp walks
    exact base.old_child fresh (inductionHypothesis above) there listed opens

/-- A walk over vaults that only grow leads where it led. -/
theorem walk_grows {root : κ} {which : ν → Prop} (grows : Grows which vaults vaults')
    (within_ : ∀ rel k, walk vaults root rel = some k → which (NodeKeys.vaultId k)) {rel : List String} {k : κ}
    (walks : walk vaults root rel = some k) : walk vaults' root rel = some k := by
  induction rel using List.reverseRecOn generalizing k with
  | nil => exact walks
  | append_singleton rel seg inductionHypothesis =>
    obtain ⟨parent, vault, e, above, there, listed, opens⟩ := walk_concat_iff.mp walks
    obtain ⟨vault', there', keeps⟩ := grows _ vault (within_ rel parent above) there
    exact walk_concat_iff.mpr ⟨parent, vault', e, inductionHypothesis above, there', keeps seg e listed, opens⟩

theorem Base.walk_new_grows (base : Base new vaults) (grows : Grows (IsNew new) vaults vaults') {rel : List String} {k : κ}
    (walks : walk vaults new rel = some k) : walk vaults' new rel = some k :=
  walk_grows grows (fun rel _ walks => ⟨rel, by rw [base.walk_new walks]⟩) walks

end Walks

/-! ## What each change of the vaults keeps -/

section Changes

variable [DecidableEq ν] {vaults : Hosted κ ν α ρ} {old new : κ} {start : Hosted κ ν α ρ}

omit [NodeKeys κ ν] in
theorem create_of_some {v u : ν} {vault : EnvVault κ α ρ} (there : vaults v = some vault) : create vaults u v = some vault := by
  unfold create
  split
  · exact there
  · next absent =>
    have other : v ≠ u := by
      rintro rfl
      simp [there] at absent
    rw [Function.update_of_ne other]
    exact there

omit [NodeKeys κ ν] in
/-- A vault after a creation was there, or is the one created. -/
theorem of_create_some {v u : ν} {vault : EnvVault κ α ρ} (there : create vaults u v = some vault) :
    vaults v = some vault ∨ (v = u ∧ vaults v = none ∧ vault = .empty) := by
  unfold create at there
  split at there
  · exact .inl there
  · next absent =>
    by_cases here : v = u
    · subst here
      rw [Function.update_self] at there
      exact .inr ⟨rfl, by simpa using absent, (Option.some.inj there).symm⟩
    · rw [Function.update_of_ne here] at there
      exact .inl there

omit [NodeKeys κ ν] in
theorem create_self (u : ν) : (create vaults u u).isSome := by
  unfold create
  split
  · assumption
  · rw [Function.update_self]
    rfl

omit [NodeKeys κ ν] in
theorem create_grows (which : ν → Prop) (u : ν) : Grows which vaults (create vaults u) :=
  fun _ vault _ there => ⟨vault, create_of_some there, fun _ _ listed => listed⟩

/-- Entries that come to be listed are derived. -/
def DerivesOnly (vaults vaults' : Hosted κ ν α ρ) : Prop :=
  ∀ v vault seg e, vaults' v = some vault → vault.children.get seg = some e →
    e.mode = .derived ∨ ∃ before, vaults v = some before ∧ before.children.get seg = some e

omit [DecidableEq ν] in
theorem Base.of (base : Base new vaults) {vaults' : Hosted κ ν α ρ} (entries : DerivesOnly vaults vaults') :
    Base new vaults' := by
  constructor
  · intro v vault seg e isNew there listed
    rcases entries v vault seg e there listed with derived | ⟨before, there', listed'⟩
    · exact derived
    · exact base.derived v before seg e isNew there' listed'
  · intro v vault seg e key there listed mode
    rcases entries v vault seg e there listed with derived | ⟨before, there', listed'⟩
    · rw [derived] at mode
      cases mode
    · exact base.listed v before seg e key there' listed' mode

omit [NodeKeys κ ν] in
theorem create_derivesOnly (u : ν) : DerivesOnly vaults (create vaults u) := by
  intro v vault seg e there listed
  rcases of_create_some there with before | ⟨_, _, rfl⟩
  · exact .inr ⟨vault, before, listed⟩
  · cases listed

omit [NodeKeys κ ν] in
/-- A vault in place of one, whose entries are derived or were listed in that. -/
theorem update_derivesOnly {u : ν} (after : EnvVault κ α ρ)
    (entries : ∀ seg e, after.children.get seg = some e →
      e.mode = .derived ∨ ∃ before, vaults u = some before ∧ before.children.get seg = some e) :
    DerivesOnly vaults (Function.update vaults u (some after)) := by
  intro v vault seg e there listed
  by_cases here : v = u
  · subst here
    rw [Function.update_self] at there
    obtain rfl := Option.some.inj there
    exact entries seg e listed
  · rw [Function.update_of_ne here] at there
    exact .inr ⟨vault, there, listed⟩

omit [NodeKeys κ ν] in
/-- A vault after a deletion was there. -/
theorem of_delete_some {u v : ν} {vault : EnvVault κ α ρ} (there : Function.update vaults u none v = some vault) :
    vaults v = some vault := by
  by_cases here : v = u
  · subst here
    rw [Function.update_self] at there
    cases there
  · rwa [Function.update_of_ne here] at there

theorem delete_grows {u : ν} (isOld : ¬IsNew new u) : Grows (IsNew new) vaults (Function.update vaults u none) := by
  intro v vault isNew there
  have other : v ≠ u := by
    rintro rfl
    exact isOld isNew
  exact ⟨vault, (Function.update_of_ne other ..).trans there, fun _ _ listed => listed⟩

omit [NodeKeys κ ν] in
theorem update_grows (which : ν → Prop) {u : ν} {vault : EnvVault κ α ρ} (after : EnvVault κ α ρ) (there : vaults u = some vault)
    (keeps : ∀ seg e, vault.children.get seg = some e → after.children.get seg = some e) :
    Grows which vaults (Function.update vaults u (some after)) := by
  intro v before _ there'
  by_cases here : v = u
  · subst here
    obtain rfl := Option.some.inj (there.symm.trans there')
    exact ⟨after, Function.update_self .., keeps⟩
  · exact ⟨before, (Function.update_of_ne here ..).trans there', fun _ _ listed => listed⟩

omit [NodeKeys κ ν] [DecidableEq ν] in
/-- Listing children one after the other. -/
theorem addDerived_all {record : ChildrenRecord κ} (derived : ∀ seg e, record.get seg = some e → e.mode = .derived)
    (segs : List String) :
    (∀ seg e, record.get seg = some e → (segs.foldl ChildrenRecord.addDerived record).get seg = some e) ∧
      (∀ seg e, (segs.foldl ChildrenRecord.addDerived record).get seg = some e → e.mode = .derived) ∧
        ∀ seg ∈ segs, (segs.foldl ChildrenRecord.addDerived record).get seg = some ⟨seg, .derived⟩ := by
  induction segs generalizing record with
  | nil => exact ⟨fun _ _ listed => listed, derived, fun seg member => by cases member⟩
  | cons first rest inductionHypothesis =>
    have derived' : ∀ seg e, (record.addDerived first).get seg = some e → e.mode = .derived := by
      intro seg e listed
      rcases ChildrenRecord.get_addDerived listed with before | ⟨_, _, rfl⟩
      · exact derived seg e before
      · rfl
    obtain ⟨keeps, after, lists⟩ := inductionHypothesis derived'
    refine ⟨fun seg e listed => keeps seg e (ChildrenRecord.get_addDerived_of_some listed), after, ?_⟩
    intro seg member
    rcases List.mem_cons.mp member with rfl | later
    · apply keeps
      cases listed : record.get seg with
      | none => exact ChildrenRecord.get_addDerived_self listed
      | some e =>
        have shape : e = ⟨seg, .derived⟩ := by
          have mode := derived seg e listed
          have name := ChildrenRecord.get_seg listed
          cases e
          cases mode
          cases name
          rfl
        rw [← shape]
        exact ChildrenRecord.get_addDerived_of_some listed
    · exact lists seg later

end Changes

/-! ## The invariant -/

/-- Until something is deleted, an old vault holds what it held at first. -/
structure Untouched (new : κ) (start vaults : Hosted κ ν α ρ) : Prop where
  absent : ∀ v, ¬IsNew new v → vaults v = none → start v = none
  records : ∀ v vault, ¬IsNew new v → vaults v = some vault → ∀ name, vault.records name = versionsAt start v name

/-- What planning knows: what is to be read and what was read are where the records lead;
every child that a read vault lists is read or to be read. -/
structure Reading (old new : κ) (start vaults : Hosted κ ν α ρ) (queue : List (List String × κ))
    (done : List (List String × ν)) : Prop where
  unborn : ∀ v, IsNew new v → vaults v = none
  untouched : Untouched new start vaults
  root : ([], old) ∈ queue ∨ ([], NodeKeys.vaultId old) ∈ done
  queued : ∀ rel k, (rel, k) ∈ queue → walk vaults old rel = some k
  read : ∀ rel v, (rel, v) ∈ done → ∃ k, v = NodeKeys.vaultId k ∧ walk vaults old rel = some k
  parents : ∀ rel seg, (∃ k, (rel ++ [seg], k) ∈ queue) ∨ (∃ v, (rel ++ [seg], v) ∈ done) → ∃ v, (rel, v) ∈ done
  closed : ∀ rel k vault seg e, (rel, NodeKeys.vaultId k) ∈ done → vaults (NodeKeys.vaultId k) = some vault →
    vault.children.get seg = some e → ∃ next, e.mode.key k seg = some next ∧
      ((rel ++ [seg], next) ∈ queue ∨ (rel ++ [seg], NodeKeys.vaultId next) ∈ done)

/-- What a plan is good for: it is of old vaults, one for each path, with their children,
and what is in a new vault is the beginning of a copy. -/
structure Planned (old new : κ) (start vaults : Hosted κ ν α ρ) (nodes : List (List String × ν)) : Prop where
  root : ([], NodeKeys.vaultId old) ∈ nodes
  unique : ∀ rel v v', (rel, v) ∈ nodes → (rel, v') ∈ nodes → v = v'
  parents : ∀ rel seg v, (rel ++ [seg], v) ∈ nodes → ∃ v', (rel, v') ∈ nodes
  foreign : ∀ rel v, (rel, v) ∈ nodes → ¬IsNew new v
  closed : ∀ rel k vault seg e, (rel, NodeKeys.vaultId k) ∈ nodes → vaults (NodeKeys.vaultId k) = some vault →
    vault.children.get seg = some e → ∃ next, e.mode.key k seg = some next ∧ (rel ++ [seg], NodeKeys.vaultId next) ∈ nodes
  begun : ∀ rel v vault name, (rel, v) ∈ nodes → vaults (NodeKeys.vaultId (derive new rel)) = some vault →
    vault.records name <+: copied (versionsAt start v name)

/-- A node's new vault holds a copy of its old one, and lists its children. -/
def Done (new : κ) (start vaults : Hosted κ ν α ρ) (nodes : List (List String × ν)) (rel : List String) (v : ν) : Prop :=
  ∃ vault, vaults (NodeKeys.vaultId (derive new rel)) = some vault ∧
    (∀ name, vault.records name = copied (versionsAt start v name)) ∧
    ∀ seg v', (rel ++ [seg], v') ∈ nodes → vault.children.get seg = some ⟨seg, .derived⟩

/-- The keys that a step opened are those of the planned vaults. -/
def Opened (nodes : List (List String × ν)) (work : List (List String × Option κ)) : Prop :=
  ∀ rel k, (rel, some k) ∈ work → (rel, NodeKeys.vaultId k) ∈ nodes

/-- What holds where a rekey is. -/
def At (old new : κ) (start vaults : Hosted κ ν α ρ) : Stage κ ν → Prop
  | .idle => (∀ v, IsNew new v → vaults v = none) ∧ Untouched new start vaults
  | .planning queue done => Reading old new start vaults queue done
  | .running nodes .planned _ => Planned old new start vaults nodes ∧ Untouched new start vaults
  | .running nodes .created work => Planned old new start vaults nodes ∧ Untouched new start vaults ∧
      ∀ rest, work = some rest → Opened nodes rest ∧ ∀ rel v, (rel, v) ∈ nodes →
        rel ∈ rest.map (·.1) ∨ Done new start vaults nodes rel v
  | .running nodes _ work => Planned old new start vaults nodes ∧ (∀ rel v, (rel, v) ∈ nodes → Done new start vaults nodes rel v) ∧
      ∀ rest, work = some rest → Opened nodes rest
  | .finished nodes => Planned old new start vaults nodes ∧ ∀ rel v, (rel, v) ∈ nodes → Done new start vaults nodes rel v

/-- An environment of the old subtree: the records lead to it, or, once it is fixed, the
plan has it. -/
def OldNode (old : κ) (vaults : Hosted κ ν α ρ) (rel : List String) (k : κ) : Stage κ ν → Prop
  | .idle | .planning _ _ => walk vaults old rel = some k
  | .running nodes _ _ | .finished nodes => (rel, NodeKeys.vaultId k) ∈ nodes

/-- Whether the plan is fixed. -/
def Stage.fixed : Stage κ ν → Bool
  | .idle | .planning _ _ => false
  | .running _ _ _ | .finished _ => true

structure Invariant (old new : κ) (start : Hosted κ ν α ρ) (s : Rekeying κ ν α ρ) : Prop where
  base : Base new s.vaults
  stage : At old new start s.vaults s.stage
  /-- An addition under way is below a new node, or below an old one whose record lists
  nothing else under its segment. -/
  adding : ∀ rel parent seg made, (rel, parent, seg, made) ∈ s.adding →
    (walk s.vaults new rel = some parent ∧ (s.vaults (NodeKeys.vaultId parent)).isSome ∧
      (made = true → (s.vaults (NodeKeys.vaultId (NodeKeys.child parent seg))).isSome)) ∨
    (OldNode old s.vaults rel parent s.stage ∧ ∀ vault, s.vaults (NodeKeys.vaultId parent) = some vault →
      ∀ e, vault.children.get seg = some e → e.mode = .derived)
  added : ∀ rel k, (rel, k) ∈ s.added → (walk s.vaults new rel = some k ∧ (s.vaults (NodeKeys.vaultId k)).isSome) ∨
    OldNode old s.vaults rel k s.stage

section Keeping

variable {old new : κ} {start vaults vaults' : Hosted κ ν α ρ} {nodes : List (List String × ν)} {s : Rekeying κ ν α ρ}

/-! ## Growing vaults -/

/-- A creation of a vault or an entry: what was there stays, with its records; the vaults
that were read list nothing more. -/
structure Extends (new : κ) (read : List (List String × ν)) (fixed : Bool) (vaults vaults' : Hosted κ ν α ρ) : Prop where
  grows : Grows (fun _ => True) vaults vaults'
  records : ∀ v vault', vaults' v = some vault' → (∃ vault, vaults v = some vault ∧ vault'.records = vault.records) ∨
    (vaults v = none ∧ ∀ name, vault'.records name = [])
  closed : ∀ rel v vault' seg e, (rel, v) ∈ read → vaults' v = some vault' → vault'.children.get seg = some e →
    ∃ vault, vaults v = some vault ∧ vault.children.get seg = some e
  unborn : fixed = false → ∀ v, IsNew new v → vaults v = none → vaults' v = none

theorem Untouched.extend {read : List (List String × ν)} {fixed : Bool} (untouched : Untouched new start vaults)
    (more : Extends new read fixed vaults vaults') : Untouched new start vaults' := by
  constructor
  · intro v isOld absent
    apply untouched.absent v isOld
    cases there : vaults v with
    | none => rfl
    | some vault =>
      obtain ⟨vault', there', _⟩ := more.grows v vault trivial there
      rw [absent] at there'
      cases there'
  · intro v vault' isOld there' name
    rcases more.records v vault' there' with ⟨vault, there, same⟩ | ⟨absent, none⟩
    · rw [same]
      exact untouched.records v vault isOld there name
    · rw [none name, versionsAt, untouched.absent v isOld absent]

theorem Done.extend {read : List (List String × ν)} {fixed : Bool} {rel : List String} {v : ν}
    (more : Extends new read fixed vaults vaults') (done : Done new start vaults nodes rel v) :
    Done new start vaults' nodes rel v := by
  obtain ⟨vault, there, copies, lists⟩ := done
  obtain ⟨vault', there', keeps⟩ := more.grows _ vault trivial there
  refine ⟨vault', there', fun name => ?_, fun seg v' child => keeps _ _ (lists seg v' child)⟩
  rcases more.records _ vault' there' with ⟨before, there'', same⟩ | ⟨absent, _⟩
  · obtain rfl := Option.some.inj (there.symm.trans there'')
    rw [same]
    exact copies name
  · rw [absent] at there
    cases there

theorem Planned.extend {fixed : Bool} (planned : Planned old new start vaults nodes) (more : Extends new nodes fixed vaults vaults') :
    Planned old new start vaults' nodes where
  root := planned.root
  unique := planned.unique
  parents := planned.parents
  foreign := planned.foreign
  closed rel k vault' seg e member there' listed := by
    obtain ⟨vault, there, listed⟩ := more.closed rel _ vault' seg e member there' listed
    exact planned.closed rel k vault seg e member there listed
  begun rel v vault' name member there' := by
    rcases more.records _ vault' there' with ⟨vault, there, same⟩ | ⟨_, none⟩
    · rw [same]
      exact planned.begun rel v vault name member there
    · rw [none name]
      exact List.nil_prefix

/-- Where the rekey is stays as it is while other owners create vaults and list
environments in vaults that were not read. -/
theorem At.extend {stage : Stage κ ν} (here : At old new start vaults stage)
    (more : Extends new stage.read stage.fixed vaults vaults') : At old new start vaults' stage := by
  cases stage with
  | idle =>
    obtain ⟨unborn, untouched⟩ := here
    exact ⟨fun v isNew => more.unborn rfl v isNew (unborn v isNew), untouched.extend more⟩
  | planning queue done =>
    have walks : ∀ rel k, walk vaults old rel = some k → walk vaults' old rel = some k := fun rel k =>
      walk_grows more.grows fun _ _ _ => trivial
    refine ⟨fun v isNew => more.unborn rfl v isNew (here.unborn v isNew), here.untouched.extend more, here.root,
      fun rel k member => walks rel k (here.queued rel k member), ?_, here.parents, ?_⟩
    · intro rel v member
      obtain ⟨k, same, led⟩ := here.read rel v member
      exact ⟨k, same, walks rel k led⟩
    · intro rel k vault' seg e member there' listed
      obtain ⟨vault, there, listed⟩ := more.closed rel _ vault' seg e member there' listed
      exact here.closed rel k vault seg e member there listed
  | running nodes step work =>
    cases step with
    | planned => exact ⟨here.1.extend more, here.2.extend more⟩
    | created =>
      obtain ⟨planned, untouched, works⟩ := here
      refine ⟨planned.extend more, untouched.extend more, fun rest same => ?_⟩
      obtain ⟨opened, either⟩ := works rest same
      exact ⟨opened, fun rel v member => (either rel v member).imp_right fun done => done.extend more⟩
    | migrated | linked | retired =>
      obtain ⟨planned, all, works⟩ := here
      exact ⟨planned.extend more, fun rel v member => (all rel v member).extend more, works⟩
  | finished nodes =>
    obtain ⟨planned, all⟩ := here
    exact ⟨planned.extend more, fun rel v member => (all rel v member).extend more⟩

/-- What an environment of the old subtree is, it stays. -/
theorem OldNode.extend {stage : Stage κ ν} {rel : List String} {k : κ} (isOld : OldNode old vaults rel k stage)
    (grows : Grows (fun _ => True) vaults vaults') : OldNode old vaults' rel k stage := by
  cases stage with
  | idle | planning queue done => exact walk_grows grows (fun _ _ _ => trivial) isOld
  | running nodes step work => exact isOld
  | finished nodes => exact isOld

omit [NodeKeys κ ν] in
theorem DerivesOnly.refl (vaults : Hosted κ ν α ρ) : DerivesOnly vaults vaults :=
  fun _ vault _ _ there listed => .inr ⟨vault, there, listed⟩

omit [NodeKeys κ ν] in
theorem Grows.refl (which : ν → Prop) (vaults : Hosted κ ν α ρ) : Grows which vaults vaults :=
  fun _ vault _ there => ⟨vault, there, fun _ _ listed => listed⟩

/-- The additions under way and returned, where vaults change and the rekey goes on. -/
theorem Invariant.adds (inv : Invariant old new start s) (stage : Stage κ ν) (entries : DerivesOnly s.vaults vaults')
    (grows : Grows (IsNew new) s.vaults vaults')
    (olds : ∀ rel k, OldNode old s.vaults rel k s.stage → OldNode old vaults' rel k stage) :
    (∀ rel parent seg made, (rel, parent, seg, made) ∈ s.adding →
      (walk vaults' new rel = some parent ∧ (vaults' (NodeKeys.vaultId parent)).isSome ∧
        (made = true → (vaults' (NodeKeys.vaultId (NodeKeys.child parent seg))).isSome)) ∨
      (OldNode old vaults' rel parent stage ∧ ∀ vault, vaults' (NodeKeys.vaultId parent) = some vault →
        ∀ e, vault.children.get seg = some e → e.mode = .derived)) ∧
    ∀ rel k, (rel, k) ∈ s.added → (walk vaults' new rel = some k ∧ (vaults' (NodeKeys.vaultId k)).isSome) ∨
      OldNode old vaults' rel k stage := by
  have lasts : ∀ rel, (s.vaults (NodeKeys.vaultId (derive new rel))).isSome →
      (vaults' (NodeKeys.vaultId (derive new rel))).isSome := by
    intro rel exists'
    obtain ⟨vault, there⟩ := Option.isSome_iff_exists.mp exists'
    obtain ⟨vault', there', _⟩ := grows _ vault ⟨rel, rfl⟩ there
    rw [there']
    rfl
  constructor
  · intro rel parent seg made member
    rcases inv.adding rel parent seg made member with ⟨walks, exists', creates⟩ | ⟨isOld, slot⟩
    · left
      obtain rfl := inv.base.walk_new walks
      refine ⟨inv.base.walk_new_grows grows walks, lasts rel exists', fun isMade => ?_⟩
      have there := creates isMade
      rw [← derive_concat] at there ⊢
      exact lasts _ there
    · right
      refine ⟨olds rel parent isOld, fun vault there e listed => ?_⟩
      rcases entries _ vault seg e there listed with derived | ⟨before, there', listed'⟩
      · exact derived
      · exact slot before there' e listed'
  · intro rel k member
    rcases inv.added rel k member with ⟨walks, exists'⟩ | isOld
    · left
      obtain rfl := inv.base.walk_new walks
      exact ⟨inv.base.walk_new_grows grows walks, lasts rel exists'⟩
    · exact .inr (olds rel k isOld)

/-! ## Planning -/

/-- The children that are to be read after a vault. -/
theorem childKeys_spec {rel : List String} {key : κ} {entries : List (ChildEntry κ)} {below : List (List String × κ)}
    (opens : childKeys rel key entries = some below) :
    (∀ rel' k, (rel', k) ∈ below → ∃ e ∈ entries, rel' = rel ++ [e.seg] ∧ e.mode.key key e.seg = some k) ∧
      ∀ e ∈ entries, ∃ k, e.mode.key key e.seg = some k ∧ (rel ++ [e.seg], k) ∈ below := by
  induction entries generalizing below with
  | nil =>
    cases opens
    exact ⟨fun _ _ member => (by cases member), fun e member => (by cases member)⟩
  | cons first rest inductionHypothesis =>
    simp only [childKeys, Option.bind_eq_bind, Option.bind_eq_some_iff] at opens
    obtain ⟨child, opensTo, others, below', same⟩ := opens
    obtain rfl := Option.some.inj same
    obtain ⟨from_, into⟩ := inductionHypothesis below'
    constructor
    · intro rel' k member
      rcases List.mem_cons.mp member with here | later
      · cases here
        exact ⟨first, List.mem_cons_self, rfl, opensTo⟩
      · obtain ⟨e, listed, spec⟩ := from_ rel' k later
        exact ⟨e, List.mem_cons_of_mem _ listed, spec⟩
    · intro e member
      rcases List.mem_cons.mp member with rfl | later
      · exact ⟨child, opensTo, List.mem_cons_self⟩
      · obtain ⟨k, opensTo', listed⟩ := into e later
        exact ⟨k, opensTo', List.mem_cons_of_mem _ listed⟩

theorem concat_inj {first second : List String} {a b : String} (same : first ++ [a] = second ++ [b]) : first = second ∧ a = b := by
  have parts := List.append_inj' same rfl
  exact ⟨parts.1, List.head_eq_of_cons_eq parts.2⟩

/-- Reading a node's vault. -/
theorem Reading.reads (fresh : Fresh old new start) {rel : List String} {key : κ} {rest below : List (List String × κ)}
    {done : List (List String × ν)} {vault : EnvVault κ α ρ} (reading : Reading old new start vaults ((rel, key) :: rest) done)
    (there : vaults (NodeKeys.vaultId key) = some vault) (opens : childKeys rel key vault.children.children = some below) :
    Reading old new start vaults (rest ++ below) (done ++ [(rel, NodeKeys.vaultId key)]) := by
  obtain ⟨from_, into⟩ := childKeys_spec opens
  have walks := reading.queued rel key List.mem_cons_self
  refine ⟨reading.unborn, reading.untouched, ?_, ?_, ?_, ?_, ?_⟩
  · rcases reading.root with queued | read
    · rcases List.mem_cons.mp queued with here | later
      · cases here
        exact .inr (by simp)
      · exact .inl (List.mem_append_left _ later)
    · exact .inr (List.mem_append_left _ read)
  · intro rel' k member
    rcases List.mem_append.mp member with later | child
    · exact reading.queued rel' k (List.mem_cons_of_mem _ later)
    · obtain ⟨e, listed, rfl, opensTo⟩ := from_ rel' k child
      exact walk_concat_iff.mpr ⟨key, vault, e, walks, there, ChildrenRecord.get_of_mem listed, opensTo⟩
  · intro rel' v member
    rcases List.mem_append.mp member with before | here
    · exact reading.read rel' v before
    · cases List.mem_singleton.mp here
      exact ⟨key, rfl, walks⟩
  · intro rel' seg either
    have keeps : (∃ v, (rel', v) ∈ done) → ∃ v, (rel', v) ∈ done ++ [(rel, NodeKeys.vaultId key)] :=
      fun ⟨v, member⟩ => ⟨v, List.mem_append_left _ member⟩
    rcases either with ⟨k, member⟩ | ⟨v, member⟩
    · rcases List.mem_append.mp member with later | child
      · exact keeps (reading.parents rel' seg (.inl ⟨k, List.mem_cons_of_mem _ later⟩))
      · obtain ⟨e, _, same, _⟩ := from_ _ k child
        obtain ⟨rfl, _⟩ := concat_inj same
        exact ⟨NodeKeys.vaultId key, by simp⟩
    · rcases List.mem_append.mp member with before | here
      · exact keeps (reading.parents rel' seg (.inr ⟨v, before⟩))
      · cases List.mem_singleton.mp here
        exact keeps (reading.parents rel' seg (.inl ⟨key, List.mem_cons_self⟩))
  · intro rel' k vault' seg e member there' listed
    rcases List.mem_append.mp member with before | here
    · obtain ⟨next, opensTo, queued | read⟩ := reading.closed rel' k vault' seg e before there' listed
      · rcases List.mem_cons.mp queued with here | later
        · cases here
          exact ⟨key, opensTo, .inr (by simp)⟩
        · exact ⟨next, opensTo, .inl (List.mem_append_left _ later)⟩
      · exact ⟨next, opensTo, .inr (List.mem_append_left _ read)⟩
    · obtain ⟨rfl, sameVault⟩ := Prod.mk.inj (List.mem_singleton.mp here)
      obtain rfl := fresh.injective sameVault
      obtain rfl := Option.some.inj (there.symm.trans there')
      obtain rfl := ChildrenRecord.get_seg listed
      obtain ⟨next, opensTo, below'⟩ := into e (ChildrenRecord.mem_of_get listed)
      exact ⟨next, opensTo, .inl (List.mem_append_right _ below')⟩

/-- The nodes that planning read are all there are, each once. -/
theorem Reading.plan (fresh : Fresh old new start) (base : Base new vaults) (reading : Reading old new start vaults [] nodes) :
    Planned old new start vaults nodes := by
  constructor
  · rcases reading.root with queued | read
    · cases queued
    · exact read
  · intro rel v v' one other
    obtain ⟨k, rfl, walks⟩ := reading.read rel v one
    obtain ⟨k', rfl, walks'⟩ := reading.read rel v' other
    rw [Option.some.inj (walks.symm.trans walks')]
  · exact fun rel seg v member => reading.parents rel seg (.inr ⟨v, member⟩)
  · intro rel v member
    obtain ⟨k, rfl, walks⟩ := reading.read rel v member
    exact base.walk_old fresh walks
  · intro rel k vault seg e member there listed
    obtain ⟨next, opensTo, queued | read⟩ := reading.closed rel k vault seg e member there listed
    · cases queued
    · exact ⟨next, opensTo, read⟩
  · intro rel v vault name _ there
    rw [reading.unborn _ ⟨rel, rfl⟩] at there
    cases there

/-- A plan has each node that the records lead to. -/
theorem Planned.complete (planned : Planned old new start vaults nodes) {rel : List String} {k : κ}
    (walks : walk vaults old rel = some k) : (rel, NodeKeys.vaultId k) ∈ nodes := by
  induction rel using List.reverseRecOn generalizing k with
  | nil =>
    obtain rfl := Option.some.inj walks
    exact planned.root
  | append_singleton rel seg inductionHypothesis =>
    obtain ⟨parent, vault, e, above, there, listed, opens⟩ := walk_concat_iff.mp walks
    obtain ⟨next, opensTo, member⟩ := planned.closed rel parent vault seg e (inductionHypothesis above) there listed
    obtain rfl := Option.some.inj (opens.symm.trans opensTo)
    exact member

/-- A plan has each child that an old vault lists as derived. -/
theorem Planned.lists (planned : Planned old new start vaults nodes) {rel : List String} {parent : κ} {seg : String}
    {vault : EnvVault κ α ρ} (there : vaults (NodeKeys.vaultId parent) = some vault)
    (member : (rel, NodeKeys.vaultId parent) ∈ nodes) (listed : vault.children.get seg ≠ none)
    (derived : ∀ e, vault.children.get seg = some e → e.mode = .derived) :
    (rel ++ [seg], NodeKeys.vaultId (NodeKeys.child parent seg)) ∈ nodes := by
  obtain ⟨e, entry⟩ := Option.ne_none_iff_exists'.mp listed
  obtain ⟨next, opens, child⟩ := planned.closed rel parent vault seg e member there entry
  rw [derived e entry] at opens
  obtain rfl := Option.some.inj opens
  exact child

/-! ## Copying -/

variable [DecidableEq ν]

theorem oldKeys_spec {work : List (List String × Option κ)} (opens : oldKeys vaults old nodes = .ok work) :
    Opened nodes work ∧ ∀ rel v, (rel, v) ∈ nodes → rel ∈ work.map (·.1) := by
  induction nodes generalizing work with
  | nil =>
    cases opens
    exact ⟨fun _ _ member => (by cases member), fun _ _ member => (by cases member)⟩
  | cons first rest inductionHypothesis =>
    obtain ⟨rel, planned⟩ := first
    unfold oldKeys at opens
    cases found : openedKey vaults old rel with
    | error e =>
      rw [found] at opens
      cases opens
    | ok key =>
      simp only [found, bind, Except.bind] at opens
      split at opens
      · cases opens
      · next same =>
        cases others : oldKeys vaults old rest with
        | error e =>
          rw [others] at opens
          cases opens
        | ok work' =>
          rw [others] at opens
          cases opens
          obtain ⟨opened, covers⟩ := inductionHypothesis others
          constructor
          · intro rel' k member
            rcases List.mem_cons.mp member with here | later
            · cases here
              have matched : NodeKeys.vaultId k = planned := by simpa using same
              rw [matched]
              exact List.mem_cons_self
            · exact List.mem_cons_of_mem _ (opened rel' k later)
          · intro rel' v member
            rcases List.mem_cons.mp member with here | later
            · cases here
              exact List.mem_cons_self
            · exact List.mem_cons_of_mem _ (covers rel' v later)

/-- A new vault changes that is a planned node's. -/
theorem Planned.update_new (planned : Planned old new start vaults nodes) (fresh : Fresh old new start) {rel : List String}
    {v : ν} (member : (rel, v) ∈ nodes) {after : EnvVault κ α ρ}
    (begins : ∀ name, after.records name <+: copied (versionsAt start v name)) :
    Planned old new start (Function.update vaults (NodeKeys.vaultId (derive new rel)) (some after)) nodes where
  root := planned.root
  unique := planned.unique
  parents := planned.parents
  foreign := planned.foreign
  closed rel' k vault seg e member' there listed := by
    have other : NodeKeys.vaultId k ≠ NodeKeys.vaultId (derive new rel) := fun same =>
      planned.foreign rel' _ member' ⟨rel, same⟩
    rw [Function.update_of_ne other] at there
    exact planned.closed rel' k vault seg e member' there listed
  begun rel' v' vault name member' there := by
    by_cases same : rel' = rel
    · subst same
      rw [Function.update_self] at there
      obtain rfl := Option.some.inj there
      obtain rfl := planned.unique rel' v v' member member'
      exact begins name
    · have other : NodeKeys.vaultId (derive new rel') ≠ NodeKeys.vaultId (derive new rel) := fun equal =>
        same (fresh.derive (fresh.injective equal))
      rw [Function.update_of_ne other] at there
      exact planned.begun rel' v' vault name member' there

theorem Untouched.update_new (untouched : Untouched new start vaults) {rel : List String} {after : EnvVault κ α ρ} :
    Untouched new start (Function.update vaults (NodeKeys.vaultId (derive new rel)) (some after)) := by
  have others : ∀ v, ¬IsNew new v → v ≠ NodeKeys.vaultId (derive new rel) := by
    rintro v isOld rfl
    exact isOld ⟨rel, rfl⟩
  constructor
  · intro v isOld absent
    rw [Function.update_of_ne (others v isOld)] at absent
    exact untouched.absent v isOld absent
  · intro v vault isOld there
    rw [Function.update_of_ne (others v isOld)] at there
    exact untouched.records v vault isOld there

theorem Done.update_other (fresh : Fresh old new start) {rel other : List String} {v : ν} {after : EnvVault κ α ρ}
    (done : Done new start vaults nodes other v) (different : other ≠ rel) :
    Done new start (Function.update vaults (NodeKeys.vaultId (derive new rel)) (some after)) nodes other v := by
  obtain ⟨vault, there, rest⟩ := done
  refine ⟨vault, ?_, rest⟩
  rw [Function.update_of_ne fun equal => different (fresh.derive (fresh.injective equal))]
  exact there

omit [NodeKeys κ ν] [DecidableEq ν] in
/-- The beginning of a copy is followed by more of it. -/
theorem copyFrom_begins {versions source : Versions ρ} (begun : versions <+: source) (written : Nat) :
    versions ++ (source.drop versions.length).take written <+: source := by
  obtain ⟨rest, rfl⟩ := begun
  rw [List.drop_left]
  exact (List.prefix_append_right_inj _).mpr (List.take_prefix ..)

omit [NodeKeys κ ν] [DecidableEq ν] in
theorem copyAll_eq {versions source : Versions ρ} (begun : versions <+: source) :
    versions ++ source.drop versions.length = source := by
  obtain ⟨rest, rfl⟩ := begun
  rw [List.drop_left]

/-! ## Deleting -/

theorem Planned.delete (planned : Planned old new start vaults nodes) (u : ν) :
    Planned old new start (Function.update vaults u none) nodes where
  root := planned.root
  unique := planned.unique
  parents := planned.parents
  foreign := planned.foreign
  closed rel k vault seg e member there := planned.closed rel k vault seg e member (of_delete_some there)
  begun rel v vault name member there := planned.begun rel v vault name member (of_delete_some there)

theorem Done.delete {rel : List String} {u v : ν} (done : Done new start vaults nodes rel v) (isOld : ¬IsNew new u) :
    Done new start (Function.update vaults u none) nodes rel v := by
  obtain ⟨vault, there, rest⟩ := done
  refine ⟨vault, ?_, rest⟩
  rw [Function.update_of_ne]
  · exact there
  · rintro rfl
    exact isOld ⟨rel, rfl⟩

end Keeping

/-! ## Steps -/

section Steps

variable [DecidableEq ν] {old new : κ} {start : Hosted κ ν α ρ} {s s' : Rekeying κ ν α ρ} {event : Option (κ × String)}

omit [DecidableEq ν] in
/-- A request that changes no vault. -/
theorem Invariant.restage (inv : Invariant old new start s) (stage : Stage κ ν) (here : At old new start s.vaults stage)
    (olds : ∀ rel k, OldNode old s.vaults rel k s.stage → OldNode old s.vaults rel k stage) :
    Invariant old new start { s with stage := stage } :=
  have adds := inv.adds stage (.refl _) (.refl _ _) olds
  ⟨inv.base, here, adds.1, adds.2⟩

omit [DecidableEq ν] in
/-- A rekey goes on with the same plan, and changes new vaults or deletes old ones. -/
theorem Invariant.proceed (inv : Invariant old new start s) {nodes : List (List String × ν)} {vaults' : Hosted κ ν α ρ}
    {step step' : RekeyStep} {work work' : Option (List (List String × Option κ))}
    (stage : s.stage = .running nodes step work) (entries : DerivesOnly s.vaults vaults')
    (grows : Grows (IsNew new) s.vaults vaults') (here : At old new start vaults' (.running nodes step' work')) :
    Invariant old new start { s with vaults := vaults', stage := .running nodes step' work' } := by
  have adds := inv.adds (.running nodes step' work') entries grows
    (fun rel k isOld => by rwa [stage] at isOld)
  exact ⟨inv.base.of entries, here, adds.1, adds.2⟩

theorem create_extends {vaults : Hosted κ ν α ρ} {u : ν} {read : List (List String × ν)} {fixed : Bool}
    (isOld : fixed = false → ¬IsNew new u) : Extends new read fixed vaults (create vaults u) := by
  constructor
  · exact create_grows _ u
  · intro v vault' there
    rcases of_create_some there with before | ⟨rfl, absent, rfl⟩
    · exact .inl ⟨vault', before, rfl⟩
    · exact .inr ⟨absent, fun _ => rfl⟩
  · intro rel v vault' seg e _ there listed
    rcases of_create_some there with before | ⟨_, _, rfl⟩
    · exact ⟨vault', before, listed⟩
    · cases listed
  · intro unfixed v isNew absent
    cases there : create vaults u v with
    | none => rfl
    | some vault =>
      rcases of_create_some there with before | ⟨rfl, _, _⟩
      · rw [absent] at before
        cases before
      · exact absurd isNew (isOld unfixed)

theorem lists_extends {vaults : Hosted κ ν α ρ} {u : ν} {read : List (List String × ν)} {fixed : Bool} {vault : EnvVault κ α ρ}
    (seg : String) (there : vaults u = some vault) (quiet : ∀ rel, (rel, u) ∈ read → vault.children.get seg ≠ none) :
    Extends new read fixed vaults
      (Function.update vaults u (some { vault with children := vault.children.addDerived seg })) := by
  constructor
  · exact update_grows _ _ there fun _ _ listed => ChildrenRecord.get_addDerived_of_some listed
  · intro v vault' there'
    by_cases here : v = u
    · subst here
      rw [Function.update_self] at there'
      obtain rfl := Option.some.inj there'
      exact .inl ⟨vault, there, rfl⟩
    · rw [Function.update_of_ne here] at there'
      exact .inl ⟨vault', there', rfl⟩
  · intro rel v vault' seg' e member there' listed
    by_cases here : v = u
    · subst here
      rw [Function.update_self] at there'
      obtain rfl := Option.some.inj there'
      rcases ChildrenRecord.get_addDerived listed with before | ⟨absent, _⟩
      · exact ⟨vault, there, before⟩
      · exact absurd absent (quiet rel member)
    · rw [Function.update_of_ne here] at there'
      exact ⟨vault', there', listed⟩
  · intro _ v _ absent
    have other : v ≠ u := by
      rintro rfl
      rw [there] at absent
      cases absent
    rwa [Function.update_of_ne other]

omit [DecidableEq ν] in
/-- What another owner's request changes: vaults are created and environments listed
where nothing was read. -/
theorem Invariant.grow (inv : Invariant old new start s) {vaults' : Hosted κ ν α ρ} (entries : DerivesOnly s.vaults vaults')
    (more : Extends new s.stage.read s.stage.fixed s.vaults vaults') : Invariant old new start { s with vaults := vaults' } :=
  have adds := inv.adds s.stage entries (fun v vault _ there => more.grows v vault trivial there)
    (fun _ _ isOld => isOld.extend more.grows)
  ⟨inv.base.of entries, inv.stage.extend more, adds.1, adds.2⟩

omit [DecidableEq ν] in
theorem At.planned {vaults : Hosted κ ν α ρ} {nodes : List (List String × ν)} {step : RekeyStep}
    {work : Option (List (List String × Option κ))} (here : At old new start vaults (.running nodes step work)) :
    Planned old new start vaults nodes := by
  cases step <;> exact here.1

/-- The request that lists an environment, where its parent was not read, or listed it
when it was. -/
theorem Invariant.lists (inv : Invariant old new start s) {rel : List String} {parent : κ}
    {seg : String} {vault : EnvVault κ α ρ} (member : (rel, parent, seg, true) ∈ s.adding)
    (there : s.vaults (NodeKeys.vaultId parent) = some vault) (quiet : ∀ rel, (rel, NodeKeys.vaultId parent) ∈ s.stage.read → vault.children.get seg ≠ none) :
    Invariant old new start
      { s with
        vaults := Function.update s.vaults (NodeKeys.vaultId parent)
          (some { vault with children := vault.children.addDerived seg })
        added := (rel ++ [seg], NodeKeys.child parent seg) :: s.added } := by
  have entries : DerivesOnly s.vaults (Function.update s.vaults (NodeKeys.vaultId parent)
      (some { vault with children := vault.children.addDerived seg })) := by
    apply update_derivesOnly
    intro seg' e listed
    rcases ChildrenRecord.get_addDerived listed with before | ⟨_, _, rfl⟩
    · exact .inr ⟨vault, there, before⟩
    · exact .inl rfl
  have more : Extends new s.stage.read s.stage.fixed s.vaults _ := lists_extends seg there quiet
  have grown := inv.grow entries more
  refine ⟨grown.base, grown.stage, grown.adding, ?_⟩
  intro rel' k listed
  rcases List.mem_cons.mp listed with here | before
  · obtain ⟨rfl, rfl⟩ := Prod.mk.inj here
    have here := inv.stage
    -- The entry for the segment is derived, whether it was there or not.
    have steps : ∀ root, (∀ e, vault.children.get seg = some e → e.mode = .derived) →
        walk (Function.update s.vaults (NodeKeys.vaultId parent)
          (some { vault with children := vault.children.addDerived seg })) root rel = some parent →
        walk (Function.update s.vaults (NodeKeys.vaultId parent)
          (some { vault with children := vault.children.addDerived seg })) root (rel ++ [seg]) =
          some (NodeKeys.child parent seg) := by
      intro root derived walks
      cases listed : vault.children.get seg with
      | none =>
        exact walk_concat_iff.mpr ⟨parent, _, ⟨seg, .derived⟩, walks, Function.update_self ..,
          ChildrenRecord.get_addDerived_self listed, rfl⟩
      | some e =>
        refine walk_concat_iff.mpr ⟨parent, _, e, walks, Function.update_self ..,
          ChildrenRecord.get_addDerived_of_some listed, ?_⟩
        rw [derived e listed]
        rfl
    rcases inv.adding rel parent seg true member with ⟨walks, _, creates⟩ | ⟨isOld, slot⟩
    · left
      constructor
      · apply steps new
        · exact fun e listed => inv.base.derived _ vault seg e ⟨rel, by rw [inv.base.walk_new walks]⟩ there listed
        · exact walk_grows more.grows (fun _ _ _ => trivial) walks
      · obtain ⟨child, exists'⟩ := Option.isSome_iff_exists.mp (creates rfl)
        obtain ⟨child', exists'', _⟩ := more.grows _ child trivial exists'
        exact Option.isSome_iff_exists.mpr ⟨child', exists''⟩
    · right
      have still := isOld.extend more.grows
      change OldNode old _ (rel ++ [seg]) _ s.stage
      cases stage : s.stage with
      | idle | planning queue done =>
        rw [stage] at still
        exact steps old (slot vault there) still
      | running nodes step work =>
        rw [stage] at isOld quiet here
        exact here.planned.lists there isOld (quiet rel isOld) (slot vault there)
      | finished nodes =>
        rw [stage] at isOld quiet here
        exact here.1.lists there isOld (quiet rel isOld) (slot vault there)
  · exact grown.added rel' k before

/-! ## Copying a node -/

omit [DecidableEq ν] in
/-- What a copy has written begins a copy of the old vault. -/
theorem At.begins {vaults : Hosted κ ν α ρ} {nodes : List (List String × ν)} {rel : List String} {key : κ}
    {rest : List (List String × Option κ)} {oldVault newVault : EnvVault κ α ρ}
    (here : At old new start vaults (.running nodes .created (some ((rel, some key) :: rest))))
    (there : vaults (NodeKeys.vaultId key) = some oldVault) (there' : vaults (NodeKeys.vaultId (derive new rel)) = some newVault) :
    (rel, NodeKeys.vaultId key) ∈ nodes ∧
      (∀ name, oldVault.records name = versionsAt start (NodeKeys.vaultId key) name) ∧
        ∀ name, newVault.records name <+: copied (versionsAt start (NodeKeys.vaultId key) name) := by
  obtain ⟨planned, untouched, works⟩ := here
  have member := (works _ rfl).1 rel key List.mem_cons_self
  exact ⟨member, untouched.records _ oldVault (planned.foreign rel _ member) there,
    fun name => planned.begun rel _ newVault name member there'⟩

/-- A copy that may be cut off. -/
theorem Invariant.copies (fresh : Fresh old new start) (inv : Invariant old new start s) {nodes : List (List String × ν)}
    {rel : List String} {key : κ} {rest : List (List String × Option κ)} {oldVault newVault : EnvVault κ α ρ}
    {written : α → Nat} (stage : s.stage = .running nodes .created (some ((rel, some key) :: rest)))
    (there : s.vaults (NodeKeys.vaultId key) = some oldVault)
    (there' : s.vaults (NodeKeys.vaultId (derive new rel)) = some newVault) :
    Invariant old new start
      { s with
        vaults := Function.update s.vaults (NodeKeys.vaultId (derive new rel)) (some (copyFrom written newVault oldVault)) } := by
  have here := inv.stage
  rw [stage] at here
  obtain ⟨member, same, begun⟩ := here.begins there there'
  obtain ⟨planned, untouched, works⟩ := here
  obtain ⟨opened, either⟩ := works _ rfl
  have begins : ∀ name, (copyFrom written newVault oldVault).records name <+:
      copied (versionsAt start (NodeKeys.vaultId key) name) := by
    intro name
    simp only [copyFrom, same]
    exact copyFrom_begins (begun name) (written name)
  have goesOn : At old new start (Function.update s.vaults (NodeKeys.vaultId (derive new rel))
      (some (copyFrom written newVault oldVault))) (.running nodes .created (some ((rel, some key) :: rest))) := by
    refine ⟨planned.update_new fresh member begins, untouched.update_new, fun rest' sameRest => ?_⟩
    obtain rfl := Option.some.inj sameRest
    refine ⟨opened, fun rel' v member' => ?_⟩
    by_cases here : rel' = rel
    · exact .inl (by simp [here])
    · exact (either rel' v member').imp_right fun done => done.update_other fresh here
  have kept := inv.proceed stage (update_derivesOnly (copyFrom written newVault oldVault) fun seg e listed => .inr ⟨newVault, there', listed⟩)
    (update_grows _ (copyFrom written newVault oldVault) there' fun _ _ listed => listed) goesOn
  rw [← stage] at kept
  exact kept

omit [NodeKeys κ ν] [DecidableEq ν] in
theorem mem_directChildren {nodes : List (List String × ν)} {rel : List String} {seg : String} {v : ν}
    (child : (rel ++ [seg], v) ∈ nodes) : seg ∈ directChildren (nodes.map (·.1)) rel := by
  refine List.mem_filterMap.mpr ⟨rel ++ [seg], List.mem_map.mpr ⟨_, child, rfl⟩, ?_⟩
  simp

/-- The request that is the last of a node's migration. -/
theorem Invariant.migrates (fresh : Fresh old new start) (inv : Invariant old new start s) {nodes : List (List String × ν)}
    {rel : List String} {key : κ} {rest : List (List String × Option κ)} {oldVault newVault : EnvVault κ α ρ}
    (stage : s.stage = .running nodes .created (some ((rel, some key) :: rest)))
    (there : s.vaults (NodeKeys.vaultId key) = some oldVault)
    (there' : s.vaults (NodeKeys.vaultId (derive new rel)) = some newVault) :
    Invariant old new start
      { s with
        vaults := Function.update s.vaults (NodeKeys.vaultId (derive new rel))
          (some { copyAll newVault oldVault with
            children := (directChildren (nodes.map (·.1)) rel).foldl ChildrenRecord.addDerived newVault.children })
        stage := .running nodes .created (some rest) } := by
  have here := inv.stage
  rw [stage] at here
  obtain ⟨member, same, begun⟩ := here.begins there there'
  obtain ⟨planned, untouched, works⟩ := here
  obtain ⟨opened, either⟩ := works _ rfl
  obtain ⟨keeps, derived, lists⟩ := addDerived_all
    (fun seg e listed => inv.base.derived _ newVault seg e ⟨rel, rfl⟩ there' listed) (directChildren (nodes.map (·.1)) rel)
  have copies : ∀ name, (copyAll newVault oldVault).records name = copied (versionsAt start (NodeKeys.vaultId key) name) := by
    intro name
    simp only [copyAll, same]
    exact copyAll_eq (begun name)
  refine inv.proceed stage (update_derivesOnly _ fun seg e listed => .inl (derived seg e listed))
    (update_grows _ _ there' keeps) ⟨planned.update_new fresh member fun name => ?_, untouched.update_new, ?_⟩
  · exact ⟨[], (List.append_nil _).trans (copies name)⟩
  · intro rest' sameRest
    obtain rfl := Option.some.inj sameRest
    refine ⟨fun rel' k listed => opened rel' k (List.mem_cons_of_mem _ listed), fun rel' v member' => ?_⟩
    by_cases here : rel' = rel
    · subst here
      obtain rfl := planned.unique rel' _ v member member'
      exact .inr ⟨_, Function.update_self .., copies, fun seg v' child => lists seg (mem_directChildren child)⟩
    · rcases either rel' v member' with waits | done
      · exact .inl ((List.mem_cons.mp waits).resolve_left here)
      · exact .inr (done.update_other fresh here)

/-! ## Additions -/

omit [DecidableEq ν] in
/-- Where the records lead from the old root is a node of the old subtree. -/
theorem Invariant.oldNode (inv : Invariant old new start s) {rel : List String} {k : κ} (walks : walk s.vaults old rel = some k) :
    OldNode old s.vaults rel k s.stage := by
  have here := inv.stage
  cases stage : s.stage with
  | idle | planning queue done => exact walks
  | running nodes step work =>
    rw [stage] at here
    exact here.planned.complete walks
  | finished nodes =>
    rw [stage] at here
    exact here.1.complete walks

omit [DecidableEq ν] in
/-- An addition begins. -/
theorem Invariant.opens (inv : Invariant old new start s) {rel : List String} {parent : κ} {seg : String}
    {vault : EnvVault κ α ρ} (walks : walk s.vaults old rel = some parent ∨ walk s.vaults new rel = some parent)
    (there : s.vaults (NodeKeys.vaultId parent) = some vault) (absent : vault.children.get seg = none) :
    Invariant old new start { s with adding := (rel, parent, seg, false) :: s.adding } := by
  refine ⟨inv.base, inv.stage, ?_, inv.added⟩
  intro rel' parent' seg' made member
  rcases List.mem_cons.mp member with here | before
  · cases here
    rcases walks with fromOld | fromNew
    · refine .inr ⟨inv.oldNode fromOld, fun vault' there' e listed => ?_⟩
      obtain rfl := Option.some.inj (there.symm.trans there')
      rw [absent] at listed
      cases listed
    · exact .inl ⟨fromNew, Option.isSome_iff_exists.mpr ⟨vault, there⟩, fun impossible => by cases impossible⟩
  · exact inv.adding rel' parent' seg' made before

omit [DecidableEq ν] in
/-- Until the plan is fixed, additions are below old nodes. -/
theorem Invariant.old_child (fresh : Fresh old new start) (inv : Invariant old new start s) {rel : List String} {parent : κ}
    {seg : String} {made : Bool} (member : (rel, parent, seg, made) ∈ s.adding) (unfixed : s.stage.fixed = false) :
    ¬IsNew new (NodeKeys.vaultId (NodeKeys.child parent seg)) := by
  have unborn : ∀ v, IsNew new v → s.vaults v = none := by
    have here := inv.stage
    cases stage : s.stage with
    | idle =>
      rw [stage] at here
      exact here.1
    | planning queue done =>
      rw [stage] at here
      exact here.unborn
    | running _ _ _ | finished _ =>
      rw [stage] at unfixed
      cases unfixed
  rcases inv.adding rel parent seg made member with ⟨walks, exists', _⟩ | ⟨isOld, _⟩
  · rw [inv.base.walk_new walks, unborn _ ⟨rel, rfl⟩] at exists'
    cases exists'
  · have walks : walk s.vaults old rel = some parent := by
      cases stage : s.stage with
      | idle | planning queue done =>
        rw [stage] at isOld
        exact isOld
      | running _ _ _ | finished _ =>
        rw [stage] at unfixed
        cases unfixed
    exact fun isNew => inv.base.walk_old fresh walks (fresh.child parent seg isNew)

/-- An addition creates its vault. -/
theorem Invariant.creates (fresh : Fresh old new start) (inv : Invariant old new start s) {rel : List String} {parent : κ}
    {seg : String} (member : (rel, parent, seg, false) ∈ s.adding) :
    Invariant old new start
      { s with
        vaults := create s.vaults (NodeKeys.vaultId (NodeKeys.child parent seg))
        adding := (rel, parent, seg, true) :: s.adding } := by
  have grown := inv.grow (create_derivesOnly (NodeKeys.vaultId (NodeKeys.child parent seg)))
    (create_extends (inv.old_child fresh member))
  refine ⟨grown.base, grown.stage, ?_, grown.added⟩
  intro rel' parent' seg' made listed
  rcases List.mem_cons.mp listed with here | before
  · cases here
    rcases grown.adding rel parent seg false member with ⟨walks, exists', _⟩ | old
    · exact .inl ⟨walks, exists', fun _ => create_self _⟩
    · exact .inr old
  · exact grown.adding rel' parent' seg' made before

/-- Every request keeps the invariant, if what it lists is not listed in a vault that was
read. -/
theorem Request.keeps (fresh : Fresh old new start) (request : Request old new s event s') (timely : Timely s event)
    (inv : Invariant old new start s) : Invariant old new start s' := by
  have here := inv.stage
  cases request with
  | begin stage =>
    rw [stage] at here
    obtain ⟨unborn, untouched⟩ := here
    apply inv.restage (.planning [([], old)] [])
    · refine ⟨unborn, untouched, .inl List.mem_cons_self, ?_, fun _ _ member => (by cases member), ?_, ?_⟩
      · intro rel k member
        cases List.mem_singleton.mp member
        rfl
      · rintro rel seg (⟨k, member⟩ | ⟨v, member⟩)
        · have same := congrArg Prod.fst (List.mem_singleton.mp member)
          exact absurd same (by simp)
        · cases member
      · intro rel k vault seg e member
        cases member
    · intro rel k isOld
      rw [stage] at isOld
      exact isOld
  | @read rel key rest done vault below stage there opens =>
    rw [stage] at here
    apply inv.restage (.planning (rest ++ below) (done ++ [(rel, NodeKeys.vaultId key)])) (Reading.reads fresh here there opens)
    · intro rel k isOld
      rw [stage] at isOld
      exact isOld
  | @plan done stage =>
    rw [stage] at here
    have planned := Reading.plan fresh inv.base here
    apply inv.restage (.running done .planned none) ⟨planned, here.untouched⟩
    · intro rel k isOld
      rw [stage] at isOld
      exact planned.complete isOld
  | @resume nodes step work stage =>
    rw [stage] at here
    refine inv.proceed stage (.refl _) (.refl _ _) ?_
    cases step with
    | planned => exact here
    | created => exact ⟨here.1, here.2.1, fun rest impossible => by cases impossible⟩
    | migrated | linked | retired => exact ⟨here.1, here.2.1, fun rest impossible => by cases impossible⟩
  | toCreate stage =>
    rw [stage] at here
    exact inv.proceed stage (.refl _) (.refl _ _) here
  | toOpen stage which opens =>
    rw [stage] at here
    refine inv.proceed stage (.refl _) (.refl _ _) ?_
    obtain ⟨opened, covers⟩ := oldKeys_spec opens
    have reversed : ∀ rel k, (rel, some k) ∈ List.reverse _ → _ := fun rel k member => opened rel k (List.mem_reverse.mp member)
    rcases which with rfl | rfl
    · refine ⟨here.1, here.2.1, fun rest same => ?_⟩
      obtain rfl := Option.some.inj same
      refine ⟨reversed, fun rel v member => .inl ?_⟩
      rw [List.map_reverse, List.mem_reverse]
      exact covers rel v member
    · refine ⟨here.1, here.2.1, fun rest same => ?_⟩
      obtain rfl := Option.some.inj same
      exact reversed
  | @create nodes rel key rest stage =>
    rw [stage] at here
    have more : Extends new nodes true s.vaults (Owner.create s.vaults (NodeKeys.vaultId (derive new rel))) :=
      create_extends fun unfixed => by cases unfixed
    exact inv.proceed stage (create_derivesOnly _) (create_grows _ _) ⟨here.1.extend more, here.2.extend more⟩
  | copy stage there there' => exact inv.copies fresh stage there there'
  | migrate stage there there' => exact inv.migrates fresh stage there there'
  | @retire nodes rel key rest stage =>
    rw [stage] at here
    obtain ⟨planned, all, works⟩ := here
    have opened := works _ rfl
    have opened' : Opened nodes rest := fun rel' k member => opened rel' k (List.mem_cons_of_mem _ member)
    cases key with
    | none =>
      refine inv.proceed stage (.refl _) (.refl _ _) ⟨planned, all, fun rest' same => ?_⟩
      obtain rfl := Option.some.inj same
      exact opened'
    | some key =>
      have isOld := planned.foreign rel _ (opened rel key List.mem_cons_self)
      refine inv.proceed stage (fun v vault seg e there listed => .inr ⟨vault, of_delete_some there, listed⟩)
        (delete_grows isOld) ⟨planned.delete _, fun rel' v member => (all rel' v member).delete isOld, fun rest' same => ?_⟩
      obtain rfl := Option.some.inj same
      exact opened'
  | toCreated stage =>
    rw [stage] at here
    exact inv.proceed stage (.refl _) (.refl _ _)
      ⟨here.1, here.2, fun rest impossible => (by cases impossible)⟩
  | toMigrated stage =>
    rw [stage] at here
    refine inv.proceed stage (.refl _) (.refl _ _)
      ⟨here.1, fun rel v member => ?_, fun rest impossible => (by cases impossible)⟩
    rcases (here.2.2 [] rfl).2 rel v member with impossible | done
    · cases impossible
    · exact done
  | toLinked stage =>
    rw [stage] at here
    exact inv.proceed stage (.refl _) (.refl _ _) here
  | toRetired stage =>
    rw [stage] at here
    exact inv.proceed stage (.refl _) (.refl _ _)
      ⟨here.1, here.2.1, fun rest impossible => (by cases impossible)⟩
  | @finish nodes stage =>
    rw [stage] at here
    apply inv.restage (.finished nodes) ⟨here.1, here.2.1⟩
    · intro rel k isOld
      rw [stage] at isOld
      exact isOld
  | addOpens walks there absent => exact inv.opens walks there absent
  | addCreates member => exact inv.creates fresh member
  | addLists member there => exact inv.lists member there fun rel read => timely _ _ rfl rel read _ there

/-! ## Runs -/

/-- What a run may come to whose requests are all allowed. -/
inductive Runs (allowed : Rekeying κ ν α ρ → Option (κ × String) → Prop) (old new : κ) (start : Rekeying κ ν α ρ) :
    Rekeying κ ν α ρ → Prop where
  | start : Runs allowed old new start start
  | request {s s' : Rekeying κ ν α ρ} {event : Option (κ × String)} : Runs allowed old new start s →
      Request old new s event s' → allowed s event → Runs allowed old new start s'

/-- Before a rekey and any addition: the environments that were added are where the
records lead. -/
structure Begins (old : κ) (start : Rekeying κ ν α ρ) : Prop where
  stage : start.stage = .idle
  adding : start.adding = []
  added : ∀ rel k, (rel, k) ∈ start.added → walk start.vaults old rel = some k

omit [DecidableEq ν] in
theorem Begins.alone {start : Rekeying κ ν α ρ} (stage : start.stage = .idle) (adding : start.adding = [])
    (added : start.added = []) : Begins old start := by
  refine ⟨stage, adding, fun rel k member => ?_⟩
  rw [added] at member
  cases member

omit [DecidableEq ν] in
theorem Invariant.begins {start : Rekeying κ ν α ρ} (fresh : Fresh old new start.vaults) (begins : Begins old start) :
    Invariant old new start.vaults start := by
  refine ⟨⟨?_, fresh.listed⟩, ?_, ?_, ?_⟩
  · intro v vault seg e isNew there
    rw [fresh.unborn v isNew] at there
    cases there
  · rw [begins.stage]
    refine ⟨fresh.unborn, fun v _ absent => absent, fun v vault _ there name => ?_⟩
    rw [versionsAt, there]
  · intro rel parent seg made member
    rw [begins.adding] at member
    cases member
  · intro rel k member
    rw [begins.stage]
    exact .inr (begins.added rel k member)

theorem Runs.keeps {start : Rekeying κ ν α ρ} (fresh : Fresh old new start.vaults) (begins : Begins old start)
    (run : Runs Timely old new start s) : Invariant old new start.vaults s := by
  induction run with
  | start => exact Invariant.begins fresh begins
  | request _ request timely inductionHypothesis => exact request.keeps fresh timely inductionHypothesis

omit [DecidableEq ν] in
/-- The new children records lead to each planned node. -/
theorem Planned.reaches {vaults : Hosted κ ν α ρ} {nodes : List (List String × ν)} (planned : Planned old new start vaults nodes)
    (all : ∀ rel v, (rel, v) ∈ nodes → Done new start vaults nodes rel v) {rel : List String} {v : ν}
    (member : (rel, v) ∈ nodes) : walk vaults new rel = some (derive new rel) := by
  induction rel using List.reverseRecOn generalizing v with
  | nil => rfl
  | append_singleton rel seg inductionHypothesis =>
    obtain ⟨v', above⟩ := planned.parents rel seg v member
    obtain ⟨vault, there, _, lists⟩ := all rel v' above
    rw [derive_concat]
    exact walk_concat_iff.mpr ⟨_, vault, _, inductionHypothesis above, there, lists seg v member, rfl⟩

end Steps

/-! ## An environment that is added while its parent is rekeyed -/

section Added

/-- A key of a node, derived from the old root or from the new one. -/
structure RootedKey where
  renewed : Bool
  path : List String
deriving DecidableEq

instance : NodeKeys RootedKey RootedKey where
  child key seg := ⟨key.renewed, key.path ++ [seg]⟩
  vaultId key := key

/-- A project without environments. -/
def rooted (vault : EnvVault RootedKey String String) : Rekeying RootedKey RootedKey String String where
  vaults key := if key = ⟨false, []⟩ then some vault else none
  stage := .idle
  adding := []
  added := []

theorem derive_rooted (key : RootedKey) (rel : List String) : derive key rel = ⟨key.renewed, key.path ++ rel⟩ := by
  induction rel generalizing key with
  | nil => simp [derive]
  | cons seg rest inductionHypothesis =>
    change derive (NodeKeys.child key seg) rest = _
    rw [inductionHypothesis]
    simp [NodeKeys.child]

theorem rooted_fresh {vault : EnvVault RootedKey String String} (childless : vault.children = .empty) :
    Fresh ⟨false, []⟩ ⟨true, []⟩ (rooted vault).vaults where
  injective _ _ same := same
  derive first second same := by
    rw [derive_rooted, derive_rooted] at same
    simpa using same
  child := by
    rintro ⟨renewed, path⟩ seg ⟨rel, same⟩
    refine ⟨path, ?_⟩
    rw [derive_rooted] at same ⊢
    have renews : renewed = true := congrArg RootedKey.renewed same
    subst renews
    rfl
  root := by
    rintro ⟨rel, same⟩
    rw [derive_rooted] at same
    cases same
  unborn := by
    rintro v ⟨rel, rfl⟩
    rw [derive_rooted]
    rfl
  listed := by
    intro v other seg e key there listed
    unfold rooted at there
    dsimp only at there
    split at there
    · cases there
      rw [childless] at listed
      cases listed
    · cases there

theorem rooted_begins {vault : EnvVault RootedKey String String} : Begins ⟨false, []⟩ (rooted vault) :=
  ⟨rfl, rfl, fun rel k member => by cases member⟩

end Added

end GalataVault.Owner
