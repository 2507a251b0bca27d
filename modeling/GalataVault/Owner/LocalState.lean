import GalataVault.Client.Rollbacks
import GalataVault.Owner.Rekey

/-!
# Owners over one local store

An owner loads the local state when it is opened, changes its own copy, and saves the whole
copy: first `config.toml` with the projects, then `state.toml` with the audit heads, the pins
and the rekey in progress. Nothing tells it that another owner has saved in between. Then
its save puts back what the other one had changed.

Where each save finds in `state.toml` what its owner last loaded or saved, no save loses
anything, whatever loads and saves of how many owners are interleaved. Keep-alive times and
servers without expiry are left out.
-/

namespace GalataVault.Owner

open Proto
open Client (Pins)

/-! ## The state -/

/-- One project: its pinned server, the paths whose keys are held, and the known tree. -/
structure ProjectState (ν : Type) where
  server : String
  held : List EnvPath
  tree : EnvPath → Option (TreeNode ν)

/-- A rekey in progress. -/
structure RekeyPlan (ν : Type) where
  path : EnvPath
  nodes : List (List String)
  oldIds : List ν
  newIds : List ν
  step : RekeyStep
  linked : Bool

/-- The same rekey, however far. -/
structure RekeyPlan.Same {ν : Type} (p q : RekeyPlan ν) : Prop where
  path : p.path = q.path
  nodes : p.nodes = q.nodes
  oldIds : p.oldIds = q.oldIds
  newIds : p.newIds = q.newIds

/-- Each project by its name. -/
abbrev Projects (ν : Type) := String → Option (ProjectState ν)

/-- What an owner remembers between runs. -/
structure LocalState (ν : Type) where
  projects : Projects ν
  audit : ν → Option ChainHead
  pins : ν → Option Pins
  rekey : Option (RekeyPlan ν)

/-- A vault is in the tree of a project. -/
def InTree {ν : Type} (projects : Projects ν) (vault : ν) : Prop :=
  ∃ name project path node, projects name = some project ∧ project.tree path = some node ∧ node.vaultId = vault

/-- Pins that remember no less. -/
structure PinsLe (pins later : Pins) : Prop where
  descriptor : ∀ pin, pins.descriptor = some pin → ∃ pin', later.descriptor = some pin' ∧ pin.generation ≤ pin'.generation
  versions : ∀ kind index version, pins.versions kind index = some version →
    ∃ version', later.versions kind index = some version' ∧ version ≤ version'

variable {ν : Type}

theorem RekeyPlan.Same.refl (p : RekeyPlan ν) : p.Same p := ⟨rfl, rfl, rfl, rfl⟩

theorem RekeyPlan.Same.trans {p q r : RekeyPlan ν} (one : p.Same q) (two : q.Same r) : p.Same r :=
  ⟨one.path.trans two.path, one.nodes.trans two.nodes, one.oldIds.trans two.oldIds, one.newIds.trans two.newIds⟩

theorem PinsLe.refl (pins : Pins) : PinsLe pins pins where
  descriptor pin known := ⟨pin, known, Nat.le_refl _⟩
  versions _ _ version known := ⟨version, known, Nat.le_refl _⟩

theorem PinsLe.trans {first second third : Pins} (one : PinsLe first second) (two : PinsLe second third) :
    PinsLe first third where
  descriptor pin known := by
    obtain ⟨later, knownLater, atLeast⟩ := one.descriptor pin known
    obtain ⟨last, knownLast, further⟩ := two.descriptor later knownLater
    exact ⟨last, knownLast, Nat.le_trans atLeast further⟩
  versions kind index version known := by
    obtain ⟨later, knownLater, atLeast⟩ := one.versions kind index version known
    obtain ⟨last, knownLast, further⟩ := two.versions kind index later knownLater
    exact ⟨last, knownLast, Nat.le_trans atLeast further⟩

/-- What a handle's check of a version does to its pins. -/
theorem PinsLe.checkVersion (shared : Client.Shared) (kind : RecordCode) (index : NameHmac) (got : Nat) :
    PinsLe shared.pins (shared.checkVersion kind index got).2.pins := by
  rcases Client.checkVersion_cases shared kind index got with ⟨_, atLeast, pinned⟩ | ⟨_, _, _, refused⟩
  · rw [pinned]
    constructor
    · intro pin known
      refine ⟨pin, ?_, Nat.le_refl _⟩
      cases kind <;> exact known
    · intro other slot version known
      by_cases same : other = kind ∧ slot = index
      · obtain ⟨rfl, rfl⟩ := same
        exact ⟨got, Client.Pins.versions_insert_self _ _ _ _, atLeast version known⟩
      · refine ⟨version, ?_, Nat.le_refl _⟩
        rw [Client.Pins.versions_insert_other _ _ (not_and_or.mp same)]
        exact known
  · rw [refused]
    exact .refl _

/-! ## What an owner does to its copy -/

/-- A vault that was opened: what was adopted of the owner's pins, and what it has shown
since, which is no less. -/
structure Environment (ν : Type) where
  vault : ν
  adopted : Option Pins
  pins : Pins
  shown : ∀ known, adopted = some known → PinsLe known pins

/-- One change of an owner's copy. The trees that a discovery, an import or a removal leaves
may be any. -/
inductive Update (ν : Type) where
  /-- `Owner::remember`. -/
  | remember (env : Environment ν)
  /-- `Owner::audit`, where the chain verified. -/
  | audit (vault : ν) (head : ChainHead)
  /-- A project or an environment that was added, imported or discovered. -/
  | grow (projects : Projects ν)
  /-- `Owner::env_remove`: the vaults that were deleted. -/
  | envRemove (vaults : List ν) (projects : Projects ν)
  /-- `Owner::env_repair` of a vault that was created anew. -/
  | envRepair (vault : ν)
  /-- A rekey that was confirmed, or that has completed a step. -/
  | advance (plan : RekeyPlan ν)
  | finishRekey (plan : RekeyPlan ν) (projects : Projects ν)
  | abortRekey

variable [DecidableEq ν]

/-- What was seen of vaults no longer applies. -/
def LocalState.forget (s : LocalState ν) (vaults : List ν) : LocalState ν where
  projects := s.projects
  audit v := if v ∈ vaults then none else s.audit v
  pins v := if v ∈ vaults then none else s.pins v
  rekey := s.rekey

/-- An owner's copy after a change. -/
def Update.apply (s : LocalState ν) : Update ν → LocalState ν
  | remember env => { s with pins := Function.update s.pins env.vault (some env.pins) }
  | audit vault head => { s with audit := Function.update s.audit vault (some head) }
  | grow projects => { s with projects := projects }
  | envRemove vaults projects => { s.forget vaults with projects := projects }
  | envRepair vault => s.forget [vault]
  | advance plan => { s with rekey := some plan }
  | finishRekey plan projects => { s.forget plan.oldIds with projects := projects, rekey := none }
  | abortRekey => { s with rekey := none }

omit [DecidableEq ν] in
/-- What the operations check in the owner's copy: an audit goes on from the recorded head, a
rekey begins where none is in progress, and the one in progress is the one that goes on. -/
def Update.Allowed (s : LocalState ν) : Update ν → Prop
  | audit vault head => ∀ known, s.audit vault = some known → known.seq ≤ head.seq
  | advance plan => ∀ known, s.rekey = some known → plan.Same known
  | finishRekey plan _ => ∃ known, s.rekey = some known ∧ plan.Same known
  | _ => True

omit [DecidableEq ν] in
/-- An environment is remembered where its vault's pins are still those it adopted, and what
is removed is at no other path. -/
def Update.Fresh (s : LocalState ν) : Update ν → Prop
  | remember env => s.pins env.vault = env.adopted
  | envRemove vaults projects => ∀ v ∈ vaults, ¬ InTree projects v
  | finishRekey plan projects => ∀ v ∈ plan.oldIds, ¬ InTree projects v
  | _ => True

omit [DecidableEq ν] in
/-- The rekey in progress ends. -/
def Update.Ends : Update ν → Prop
  | finishRekey _ _ | abortRekey => True
  | _ => False

omit [DecidableEq ν] in
/-- A vault is created anew, or leaves the tree. -/
def Update.Forgets (vault : ν) : Update ν → Prop
  | envRepair v => v = vault
  | envRemove vaults projects => vault ∈ vaults ∧ ¬ InTree projects vault
  | finishRekey plan projects => vault ∈ plan.oldIds ∧ ¬ InTree projects vault
  | _ => False

/-! ## What changes keep -/

omit [DecidableEq ν] in
/-- What one state remembers another one does too, unless one of the updates ended the rekey,
or created the vault anew or took it out of the tree. -/
structure Keeps (updates : List (Update ν)) (s after : LocalState ν) : Prop where
  rekey : ∀ plan, s.rekey = some plan →
    (∃ plan', after.rekey = some plan' ∧ plan'.Same plan) ∨ ∃ u ∈ updates, u.Ends
  audit : ∀ vault head, s.audit vault = some head →
    (∃ head', after.audit vault = some head' ∧ head.seq ≤ head'.seq) ∨ ∃ u ∈ updates, u.Forgets vault
  pins : ∀ vault pins, s.pins vault = some pins →
    (∃ pins', after.pins vault = some pins' ∧ PinsLe pins pins') ∨ ∃ u ∈ updates, u.Forgets vault

omit [DecidableEq ν] in
theorem Keeps.refl (updates : List (Update ν)) (s : LocalState ν) : Keeps updates s s where
  rekey plan known := .inl ⟨plan, known, .refl plan⟩
  audit _ head known := .inl ⟨head, known, Nat.le_refl _⟩
  pins _ pins known := .inl ⟨pins, known, .refl pins⟩

omit [DecidableEq ν] in
theorem Keeps.trans {earlier later : List (Update ν)} {first second third : LocalState ν}
    (one : Keeps earlier first second) (two : Keeps later second third) : Keeps (earlier ++ later) first third := by
  have before : ∀ {P : Update ν → Prop}, (∃ u ∈ earlier, P u) → ∃ u ∈ earlier ++ later, P u := by
    rintro P ⟨u, member, holds⟩
    exact ⟨u, List.mem_append_left _ member, holds⟩
  have after : ∀ {P : Update ν → Prop}, (∃ u ∈ later, P u) → ∃ u ∈ earlier ++ later, P u := by
    rintro P ⟨u, member, holds⟩
    exact ⟨u, List.mem_append_right _ member, holds⟩
  constructor
  · intro plan known
    rcases one.rekey plan known with ⟨plan', known', same⟩ | ended
    · rcases two.rekey plan' known' with ⟨plan'', known'', same'⟩ | ended
      · exact .inl ⟨plan'', known'', same'.trans same⟩
      · exact .inr (after ended)
    · exact .inr (before ended)
  · intro vault head known
    rcases one.audit vault head known with ⟨head', known', atLeast⟩ | forgotten
    · rcases two.audit vault head' known' with ⟨head'', known'', further⟩ | forgotten
      · exact .inl ⟨head'', known'', Nat.le_trans atLeast further⟩
      · exact .inr (after forgotten)
    · exact .inr (before forgotten)
  · intro vault pins known
    rcases one.pins vault pins known with ⟨pins', known', atLeast⟩ | forgotten
    · rcases two.pins vault pins' known' with ⟨pins'', known'', further⟩ | forgotten
      · exact .inl ⟨pins'', known'', atLeast.trans further⟩
      · exact .inr (after forgotten)
    · exact .inr (before forgotten)

/-- What was seen of the other vaults stays. -/
theorem Keeps.forget {u : Update ν} {s after : LocalState ν} {vaults : List ν}
    (forgets : ∀ v ∈ vaults, u.Forgets v) (audit : after.audit = (s.forget vaults).audit)
    (pins : after.pins = (s.forget vaults).pins)
    (rekey : ∀ plan, s.rekey = some plan → (∃ plan', after.rekey = some plan' ∧ plan'.Same plan) ∨ u.Ends) :
    Keeps [u] s after := by
  constructor
  · intro plan known
    exact (rekey plan known).imp_right fun ends => ⟨u, List.mem_singleton_self u, ends⟩
  · intro vault head known
    rw [audit]
    by_cases gone : vault ∈ vaults
    · exact .inr ⟨u, List.mem_singleton_self u, forgets vault gone⟩
    · refine .inl ⟨head, ?_, Nat.le_refl _⟩
      simp only [LocalState.forget, if_neg gone, known]
  · intro vault known seen
    rw [pins]
    by_cases gone : vault ∈ vaults
    · exact .inr ⟨u, List.mem_singleton_self u, forgets vault gone⟩
    · refine .inl ⟨known, ?_, .refl known⟩
      simp only [LocalState.forget, if_neg gone, seen]

/-- One change that is allowed and fresh. -/
theorem Update.keeps {u : Update ν} {s : LocalState ν} (allowed : u.Allowed s) (fresh : u.Fresh s) :
    Keeps [u] s (u.apply s) := by
  cases u with
  | remember env =>
    refine ⟨(Keeps.refl [_] s).rekey, (Keeps.refl [_] s).audit, fun vault known seen => .inl ?_⟩
    by_cases same : vault = env.vault
    · subst same
      have adopted : env.adopted = some known := fresh.symm.trans seen
      exact ⟨env.pins, Function.update_self .., env.shown known adopted⟩
    · exact ⟨known, (Function.update_of_ne same ..).trans seen, .refl known⟩
  | audit owned head =>
    refine ⟨(Keeps.refl [_] s).rekey, fun vault known seen => .inl ?_, (Keeps.refl [_] s).pins⟩
    by_cases same : vault = owned
    · subst same
      exact ⟨head, Function.update_self .., allowed known seen⟩
    · exact ⟨known, (Function.update_of_ne same ..).trans seen, Nat.le_refl _⟩
  | grow projects => exact ⟨(Keeps.refl [_] s).rekey, (Keeps.refl [_] s).audit, (Keeps.refl [_] s).pins⟩
  | envRemove vaults projects =>
    exact .forget (fun v member => ⟨member, fresh v member⟩) rfl rfl fun plan known => .inl ⟨plan, known, .refl plan⟩
  | envRepair vault =>
    exact .forget (fun v member => (List.mem_singleton.mp member).symm) rfl rfl
      fun plan known => .inl ⟨plan, known, .refl plan⟩
  | advance plan =>
    exact ⟨fun known seen => .inl ⟨plan, rfl, allowed known seen⟩, (Keeps.refl [_] s).audit, (Keeps.refl [_] s).pins⟩
  | finishRekey plan projects =>
    exact .forget (fun v member => ⟨member, fresh v member⟩) rfl rfl fun _ _ => .inr trivial
  | abortRekey =>
    exact ⟨fun _ _ => .inr ⟨_, List.mem_singleton_self _, trivial⟩, (Keeps.refl [_] s).audit, (Keeps.refl [_] s).pins⟩

/-! ## Loads and saves -/

/-- An owner's copy: what it last loaded or saved, and what it has changed since. -/
structure Copy (ν : Type) where
  base : LocalState ν
  updates : List (Update ν)

/-- The copy as it is now. -/
def Copy.state (copy : Copy ν) : LocalState ν := copy.updates.foldl Update.apply copy.base

/-- Where an owner is. A load has read `config.toml` only, a save has written it only. -/
inductive Activity (ν : Type) where
  | closed
  | loading (projects : Projects ν) (environments : List (Environment ν))
  | opened (copy : Copy ν) (environments : List (Environment ν))
  | saving (copy : Copy ν) (environments : List (Environment ν))

/-- The two files of a store, and the owners that have it open. -/
structure Stores (ι ν : Type) where
  files : LocalState ν
  owners : ι → Activity ν

variable {ι : Type} [DecidableEq ι]

/-- The store where an owner has come to another activity. -/
def Stores.moved (s : Stores ι ν) (o : ι) (activity : Activity ν) : Stores ι ν :=
  { s with owners := Function.update s.owners o activity }

/-- What an owner does next, with the copy it does it with. -/
inductive Event (ι ν : Type) where
  | readConfig (o : ι)
  | readState (o : ι)
  | environment (o : ι)
  | change (o : ι) (copy : Copy ν) (u : Update ν)
  | writeConfig (o : ι) (copy : Copy ν)
  | writeState (o : ι) (copy : Copy ν)
  /-- `state.toml` could not be written. -/
  | failed (o : ι)
  | close (o : ι)

/-- One step of one owner. A reload drops what was not saved, and environments outlast it; an
owner may end anywhere. -/
inductive Step (s : Stores ι ν) : Event ι ν → Stores ι ν → Prop where
  | readConfig {o : ι} (closed : s.owners o = .closed) :
      Step s (.readConfig o) (s.moved o (.loading s.files.projects []))
  | reload {o : ι} {copy : Copy ν} {environments : List (Environment ν)} (opened : s.owners o = .opened copy environments) :
      Step s (.readConfig o) (s.moved o (.loading s.files.projects environments))
  | readState {o : ι} {projects : Projects ν} {environments : List (Environment ν)}
      (loading : s.owners o = .loading projects environments) :
      Step s (.readState o) (s.moved o (.opened ⟨{ s.files with projects := projects }, []⟩ environments))
  | environment {o : ι} {copy : Copy ν} {environments : List (Environment ν)} (env : Environment ν)
      (opened : s.owners o = .opened copy environments) (adopted : env.adopted = copy.state.pins env.vault) :
      Step s (.environment o) (s.moved o (.opened copy (env :: environments)))
  | shown {o : ι} {copy : Copy ν} {before after : List (Environment ν)} (env later : Environment ν)
      (opened : s.owners o = .opened copy (before ++ env :: after)) (vault : later.vault = env.vault)
      (adopted : later.adopted = env.adopted) (more : PinsLe env.pins later.pins) :
      Step s (.environment o) (s.moved o (.opened copy (before ++ later :: after)))
  | change {o : ι} {copy : Copy ν} {environments : List (Environment ν)} {u : Update ν}
      (opened : s.owners o = .opened copy environments) (allowed : u.Allowed copy.state)
      (remembers : ∀ env, u = .remember env → env ∈ environments) :
      Step s (.change o copy u) (s.moved o (.opened ⟨copy.base, copy.updates ++ [u]⟩ environments))
  | writeConfig {o : ι} {copy : Copy ν} {environments : List (Environment ν)}
      (opened : s.owners o = .opened copy environments) :
      Step s (.writeConfig o copy)
        { s.moved o (.saving copy environments) with files := { s.files with projects := copy.state.projects } }
  | writeState {o : ι} {copy : Copy ν} {environments : List (Environment ν)}
      (saving : s.owners o = .saving copy environments) :
      Step s (.writeState o copy)
        { s.moved o (.opened ⟨copy.state, []⟩ environments) with
          files := { copy.state with projects := s.files.projects } }
  | failed {o : ι} {copy : Copy ν} {environments : List (Environment ν)} (saving : s.owners o = .saving copy environments) :
      Step s (.failed o) (s.moved o (.opened copy environments))
  | close {o : ι} : Step s (.close o) (s.moved o .closed)

/-- The changes that a step saves. -/
def Event.saved : Event ι ν → List (Update ν)
  | writeState _ copy => copy.updates
  | _ => []

/-- A save finds in `state.toml` what its owner last loaded or saved, and a change is fresh. -/
def Event.Alone (s : Stores ι ν) : Event ι ν → Prop
  | change _ copy u => u.Fresh copy.state
  | writeState _ copy => { s.files with projects := copy.base.projects } = copy.base
  | _ => True

/-- What steps that are allowed come to, one after the other. -/
inductive StoreRuns (allowed : Stores ι ν → Event ι ν → Prop) (start : Stores ι ν) : List (Event ι ν) → Stores ι ν → Prop where
  | start : StoreRuns allowed start [] start
  | step {events : List (Event ι ν)} {s s' : Stores ι ν} {e : Event ι ν} (earlier : StoreRuns allowed start events s)
      (step : Step s e s') (fine : allowed s e) : StoreRuns allowed start (events ++ [e]) s'

/-! ## What saves keep -/

/-- What an owner holds, if it has a copy. -/
def Activity.copy? : Activity ν → Option (Copy ν)
  | opened copy _ | saving copy _ => some copy
  | _ => none

/-- Every copy remembers what it was loaded with. -/
def Stores.Faithful (s : Stores ι ν) : Prop :=
  ∀ o copy, (s.owners o).copy? = some copy → Keeps copy.updates copy.base copy.state

omit [DecidableEq ι] in
theorem keeps_unchanged (state : LocalState ν) : Keeps (⟨state, []⟩ : Copy ν).updates state (⟨state, []⟩ : Copy ν).state :=
  .refl [] state

theorem Stores.Faithful.moved {s : Stores ι ν} (faithful : s.Faithful) {o : ι} {activity : Activity ν}
    (keeps : ∀ copy, activity.copy? = some copy → Keeps copy.updates copy.base copy.state) (files : LocalState ν) :
    ({ s.moved o activity with files := files } : Stores ι ν).Faithful := by
  intro other copy held
  by_cases same : other = o
  · subst same
    have here : (s.moved other activity).owners other = activity := Function.update_self ..
    exact keeps copy ((congrArg Activity.copy? here).symm.trans held)
  · have there : (s.moved o activity).owners other = s.owners other := Function.update_of_ne same ..
    exact faithful other copy ((congrArg Activity.copy? there).symm.trans held)

/-- One step keeps what is saved, but for what it saves the end of. -/
theorem Step.keeps {s s' : Stores ι ν} {e : Event ι ν} (step : Step s e s') (alone : e.Alone s) (faithful : s.Faithful) :
    s'.Faithful ∧ Keeps e.saved s.files s'.files := by
  cases step with
  | readConfig closed =>
    exact ⟨faithful.moved (fun copy impossible => by cases impossible) s.files, .refl _ _⟩
  | reload opened =>
    exact ⟨faithful.moved (fun copy impossible => by cases impossible) s.files, .refl _ _⟩
  | readState loading =>
    refine ⟨faithful.moved (fun copy held => ?_) s.files, .refl _ _⟩
    obtain rfl := Option.some.inj held
    exact keeps_unchanged _
  | @environment o copy _ env opened adopted =>
    refine ⟨faithful.moved (fun other held => ?_) s.files, .refl _ _⟩
    obtain rfl := Option.some.inj held
    exact faithful o copy (by rw [opened]; rfl)
  | @shown o copy _ _ env later opened vault adopted more =>
    refine ⟨faithful.moved (fun other held => ?_) s.files, .refl _ _⟩
    obtain rfl := Option.some.inj held
    exact faithful o copy (by rw [opened]; rfl)
  | @change o copy _ u opened allowed remembers =>
    refine ⟨faithful.moved (fun other held => ?_) s.files, .refl _ _⟩
    obtain rfl := Option.some.inj held
    have before : Keeps copy.updates copy.base copy.state := faithful o copy (by rw [opened]; rfl)
    have now : (⟨copy.base, copy.updates ++ [u]⟩ : Copy ν).state = u.apply copy.state := by
      simp only [Copy.state, List.foldl_append, List.foldl_cons, List.foldl_nil]
    rw [now]
    exact before.trans (u.keeps allowed alone)
  | @writeConfig o copy _ opened =>
    refine ⟨faithful.moved (fun other held => ?_) _, ?_⟩
    · obtain rfl := Option.some.inj held
      exact faithful o copy (by rw [opened]; rfl)
    · -- Only the projects are written.
      exact ⟨(Keeps.refl [] s.files).rekey, (Keeps.refl [] s.files).audit, (Keeps.refl [] s.files).pins⟩
  | @writeState o copy _ saving =>
    refine ⟨faithful.moved (fun other held => ?_) _, ?_⟩
    · obtain rfl := Option.some.inj held
      exact keeps_unchanged _
    · have held : Keeps copy.updates copy.base copy.state := faithful o copy (by rw [saving]; rfl)
      have found : { s.files with projects := copy.base.projects } = copy.base := alone
      rw [← found] at held
      exact ⟨held.rekey, held.audit, held.pins⟩
  | @failed o copy _ saving =>
    refine ⟨faithful.moved (fun other held => ?_) s.files, .refl _ _⟩
    obtain rfl := Option.some.inj held
    exact faithful o copy (by rw [saving]; rfl)
  | close =>
    exact ⟨faithful.moved (fun copy impossible => by cases impossible) s.files, .refl _ _⟩

theorem StoreRuns.faithful {start s : Stores ι ν} {events : List (Event ι ν)} (runs : StoreRuns (fun s e => e.Alone s) start events s)
    (faithful : start.Faithful) : s.Faithful := by
  induction runs with
  | start => exact faithful
  | step earlier step alone inductionHypothesis => exact (step.keeps alone inductionHypothesis).1

/-- However the loads and saves of any owners are interleaved, where each save finds what its
owner last loaded or saved, what is saved at one moment is remembered at every later one. -/
theorem saves_keep {start s s' : Stores ι ν} {before after : List (Event ι ν)} (closed : ∀ o, start.owners o = .closed)
    (reached : StoreRuns (fun s e => e.Alone s) start before s) (later : StoreRuns (fun s e => e.Alone s) s after s') :
    Keeps (after.flatMap Event.saved) s.files s'.files := by
  have faithful : s.Faithful := by
    apply reached.faithful
    intro o copy held
    rw [closed o] at held
    cases held
  induction later with
  | start => exact .refl _ _
  | step earlier step alone inductionHypothesis =>
    rw [List.flatMap_append, List.flatMap_singleton]
    exact inductionHypothesis.trans (step.keeps alone (earlier.faithful faithful)).2

/-- An owner that loads and saves at once is alone with it, and changes nothing. -/
theorem Stores.loads_saves {s : Stores ι ν} {o : ι} (closed : s.owners o = .closed) :
    ∃ events s', StoreRuns (fun s e => e.Alone s) s events s' ∧ events.length = 4 ∧ s'.files = s.files := by
  let copy : Copy ν := ⟨s.files, []⟩
  let loading := s.moved o (.loading s.files.projects [])
  let opened := loading.moved o (.opened copy [])
  let saving := opened.moved o (.saving copy [])
  have readConfig : Step s (.readConfig o) loading := .readConfig closed
  have readState : Step loading (.readState o) opened := .readState (Function.update_self ..)
  have writeConfig : Step opened (.writeConfig o copy) saving := .writeConfig (Function.update_self ..)
  have writeState : Step saving (.writeState o copy) (saving.moved o (.opened copy [])) :=
    .writeState (Function.update_self ..)
  exact ⟨_, _, (((StoreRuns.start.step readConfig trivial).step readState trivial).step writeConfig trivial).step writeState rfl,
    rfl, rfl⟩

/-! ## Two owners by hand -/

/-- A store that nothing was saved in, and that nobody has open. -/
def Stores.empty : Stores Bool Nat := ⟨⟨fun _ => none, fun _ => none, fun _ => none, none⟩, fun _ => .closed⟩

/-- A rekey of one vault. -/
def onePlan : RekeyPlan Nat :=
  { path := ⟨["p"], by decide, by decide⟩, nodes := [[]], oldIds := [1], newIds := [2], step := .planned, linked := false }

/-- The second owner loads before the first one saves its plan. Its own save changes nothing
of its copy, and the plan is gone. -/
theorem plan_lost :
    ∃ (before after : List (Event Bool Nat)) (s s' : Stores Bool Nat),
      StoreRuns (fun _ _ => True) .empty before s ∧ StoreRuns (fun _ _ => True) s after s' ∧
        ¬ Keeps (after.flatMap Event.saved) s.files s'.files := by
  have nothing : StoreRuns (fun _ _ => True) Stores.empty [] Stores.empty := .start
  have first := (nothing.step (.readConfig (o := false) rfl) trivial).step (.readState (o := false) rfl) trivial
  have both := (first.step (.readConfig (o := true) rfl) trivial).step (.readState (o := true) rfl) trivial
  have planned := ((both.step (.change (o := false) (u := .advance onePlan) rfl (fun known impossible => nomatch impossible)
    (fun env impossible => nomatch impossible)) trivial).step (.writeConfig (o := false) rfl) trivial).step
      (.writeState (o := false) rfl) trivial
  refine ⟨_, _, _, _, planned,
    (StoreRuns.start.step (.writeConfig (o := true) rfl) trivial).step (.writeState (o := true) rfl) trivial, ?_⟩
  intro keeps
  rcases keeps.rekey onePlan rfl with ⟨plan, known, _⟩ | ⟨u, member, _⟩
  · cases known
  · cases member

/-- Where it loads after that, the plan stays. -/
theorem saves_keep_planned :
    ∃ (before after : List (Event Bool Nat)) (s s' : Stores Bool Nat),
      StoreRuns (fun s e => e.Alone s) .empty before s ∧ StoreRuns (fun s e => e.Alone s) s after s' ∧
        s.files.rekey = some onePlan ∧ after.length = 4 ∧ Keeps (after.flatMap Event.saved) s.files s'.files := by
  have later : ∀ {events : List (Event Bool Nat)} {s : Stores Bool Nat}, StoreRuns (fun s e => e.Alone s) .empty events s →
      s.files.rekey = some onePlan → s.owners true = .closed →
        ∃ (before after : List (Event Bool Nat)) (s s' : Stores Bool Nat),
          StoreRuns (fun s e => e.Alone s) .empty before s ∧ StoreRuns (fun s e => e.Alone s) s after s' ∧
            s.files.rekey = some onePlan ∧ after.length = 4 ∧ Keeps (after.flatMap Event.saved) s.files s'.files := by
    intro events s planned known closed
    obtain ⟨after, s', saved, length, _⟩ := Stores.loads_saves closed
    exact ⟨events, after, s, s', planned, saved, known, length, saves_keep (fun _ => rfl) planned saved⟩
  have nothing : StoreRuns (fun s e => e.Alone s) Stores.empty [] Stores.empty := .start
  have first := (nothing.step (.readConfig (o := false) rfl) trivial).step (.readState (o := false) rfl) trivial
  have planned := ((first.step (.change (o := false) (u := .advance onePlan) rfl (fun known impossible => nomatch impossible)
    (fun env impossible => nomatch impossible)) trivial).step (.writeConfig (o := false) rfl) trivial).step
      (.writeState (o := false) rfl) rfl
  exact later planned rfl rfl

end GalataVault.Owner
