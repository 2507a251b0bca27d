import GalataVault.Owner.Aborts

/-!
# Writes to an old vault while its node is rekeyed

Other clients put and delete records in the old vaults until these are deleted. A server
keeps a bounded history: a write may drop the oldest versions of its record. A rekey
copies what it finds, by counting the versions it has copied before. So a write is copied
if its node is still to be migrated, and it drops no version of a record that is copied in
part.
-/

namespace GalataVault.Owner

variable {κ ν α ρ : Type} [NodeKeys κ ν]

/-- A rekey, and the last version of each record that a server has acknowledged. -/
structure Shared (κ ν α ρ : Type) where
  rekey : Rekeying κ ν α ρ
  acknowledged : ν → α → Option (Option ρ)

/-- Whether a node is still to be migrated. -/
def Stage.awaits (rel : List String) : Stage κ ν → Prop
  | .idle | .planning _ _ | .running _ .planned _ | .running _ .created none => True
  | .running _ .created (some work) => rel ∈ work.map (·.1)
  | _ => False

section

variable [DecidableEq α]

/-- A vault with one more version of a record, and so many of the oldest dropped. -/
def EnvVault.write (vault : EnvVault κ α ρ) (name : α) (version : Option ρ) (dropped : Nat) : EnvVault κ α ρ :=
  { vault with records := Function.update vault.records name ((vault.records name).drop dropped ++ [version]) }

variable [DecidableEq ν]

/-- One request of the rekey, or another client's write to an old vault. The latter
carries the vault, the record and how many versions it dropped. -/
inductive SharedRequest (old new : κ) : Shared κ ν α ρ → Option (ν × α × Nat) → Shared κ ν α ρ → Prop where
  | rekey {s event s' acknowledged} : Request old new s event s' → s'.adding = [] →
      SharedRequest old new ⟨s, acknowledged⟩ none ⟨s', acknowledged⟩
  | write {s acknowledged v vault name version dropped} : ¬IsNew new v → s.vaults v = some vault →
      SharedRequest old new ⟨s, acknowledged⟩ (some (v, name, dropped))
        ⟨{ s with vaults := Function.update s.vaults v (some (vault.write name version dropped)) },
          Function.update acknowledged v (Function.update (acknowledged v) name (some version))⟩

/-- A write to a planned node's old vault comes before its migration, and drops nothing
of a record that was copied in part. -/
def Prompt (new : κ) (s : Shared κ ν α ρ) (event : Option (ν × α × Nat)) : Prop :=
  ∀ v name dropped, event = some (v, name, dropped) → ∀ rel, (rel, v) ∈ s.rekey.stage.read →
    s.rekey.stage.awaits rel ∧ (dropped = 0 ∨
      ∀ vault, s.rekey.vaults (NodeKeys.vaultId (derive new rel)) = some vault → vault.records name = [])

/-- What a run may come to whose requests are all allowed. -/
inductive SharedRuns (allowed : Shared κ ν α ρ → Option (ν × α × Nat) → Prop) (old new : κ) (start : Shared κ ν α ρ) :
    Shared κ ν α ρ → Prop where
  | start : SharedRuns allowed old new start start
  | request {s s' : Shared κ ν α ρ} {event : Option (ν × α × Nat)} : SharedRuns allowed old new start s →
      SharedRequest old new s event s' → allowed s event → SharedRuns allowed old new start s'

end

/-! ## Versions -/

section Versions

/-- A copy of fewer versions begins a copy of more. -/
theorem copied_begins (versions : Versions ρ) (version : Option ρ) : copied versions <+: copied (versions ++ [version]) := by
  unfold copied
  rw [List.dropWhile_append]
  split
  · next none =>
    rw [List.isEmpty_iff.mp none]
    exact List.nil_prefix
  · exact List.prefix_append _ _

/-- A copy ends with the last version, if that is not a tombstone. -/
theorem copied_getLast {versions : Versions ρ} {value : ρ} (last : versions.getLast? = some (some value)) :
    (copied versions).getLast? = some (some value) := by
  obtain ⟨before, rfl⟩ := List.getLast?_eq_some_iff.mp last
  unfold copied
  rw [List.dropWhile_append]
  split
  · rfl
  · exact List.getLast?_concat

end Versions

/-! ## A write -/

section Writes

variable [DecidableEq α] [DecidableEq ν] {old new : κ} {start vaults : Hosted κ ν α ρ} {nodes : List (List String × ν)}
  {s : Rekeying κ ν α ρ} {v : ν} {vault after : EnvVault κ α ρ} {name : α} {version : Option ρ} {dropped : Nat}

omit [NodeKeys κ ν] [DecidableEq α] in
theorem versionsAt_other {u : ν} (other : u ≠ v) : versionsAt (Function.update start v (some after)) u = versionsAt start u := by
  funext name
  unfold versionsAt
  rw [Function.update_of_ne other]

omit [NodeKeys κ ν] [DecidableEq α] in
theorem versionsAt_self : versionsAt (Function.update start v (some after)) v = after.records := by
  funext name
  unfold versionsAt
  rw [Function.update_self]

omit [DecidableEq α] in
/-- Until something is deleted, the old vaults hold what they are written to hold. -/
theorem Untouched.write (untouched : Untouched new start vaults) :
    Untouched new (Function.update start v (some after)) (Function.update vaults v (some after)) := by
  constructor
  · intro u isOld absent
    by_cases here : u = v
    · subst here
      rw [Function.update_self] at absent
      cases absent
    · rw [Function.update_of_ne here] at absent ⊢
      exact untouched.absent u isOld absent
  · intro u vault isOld there name
    by_cases here : u = v
    · subst here
      rw [Function.update_self] at there
      obtain rfl := Option.some.inj there
      rw [versionsAt_self]
    · rw [Function.update_of_ne here] at there
      rw [versionsAt_other here]
      exact untouched.records u vault isOld there name

/-- A write to an old vault leaves the plan as it is. -/
theorem Planned.write (planned : Planned old new start vaults nodes) (isOld : ¬IsNew new v) (there : vaults v = some vault)
    (begins : ∀ rel, (rel, v) ∈ nodes → ∀ other n, vaults (NodeKeys.vaultId (derive new rel)) = some other →
      other.records n <+: copied ((vault.write name version dropped).records n)) :
    Planned old new (Function.update start v (some (vault.write name version dropped)))
      (Function.update vaults v (some (vault.write name version dropped))) nodes where
  root := planned.root
  unique := planned.unique
  parents := planned.parents
  foreign := planned.foreign
  closed rel k other seg e member there' listed := by
    by_cases here : NodeKeys.vaultId k = v
    · rw [here, Function.update_self] at there'
      obtain rfl := Option.some.inj there'
      exact planned.closed rel k vault seg e member (by rw [here]; exact there) listed
    · rw [Function.update_of_ne here] at there'
      exact planned.closed rel k other seg e member there' listed
  begun rel u other n member there' := by
    have apart : NodeKeys.vaultId (derive new rel) ≠ v := fun same => isOld ⟨rel, same.symm⟩
    rw [Function.update_of_ne apart] at there'
    by_cases here : u = v
    · subst here
      rw [versionsAt_self]
      exact begins rel member other n there'
    · rw [versionsAt_other here]
      exact planned.begun rel u other n member there'

omit [DecidableEq α] in
theorem Done.write {rel : List String} {u : ν} (done : Done new start vaults nodes rel u) (isOld : ¬IsNew new v) (other : u ≠ v) :
    Done new (Function.update start v (some after)) (Function.update vaults v (some after)) nodes rel u := by
  obtain ⟨vault, there, copies, lists⟩ := done
  refine ⟨vault, ?_, ?_, lists⟩
  · rw [Function.update_of_ne fun same => isOld ⟨rel, same.symm⟩]
    exact there
  · rw [versionsAt_other other]
    exact copies

omit [DecidableEq ν] in
/-- What was copied of a record begins a copy of what a prompt write makes of it. -/
theorem begins_after (untouched : Untouched new start vaults) (isOld : ¬IsNew new v) (there : vaults v = some vault)
    (planned : Planned old new start vaults nodes)
    (whole : ∀ rel, (rel, v) ∈ nodes → dropped = 0 ∨
      ∀ other, vaults (NodeKeys.vaultId (derive new rel)) = some other → other.records name = []) :
    ∀ rel, (rel, v) ∈ nodes → ∀ other n, vaults (NodeKeys.vaultId (derive new rel)) = some other →
      other.records n <+: copied ((vault.write name version dropped).records n) := by
  intro rel member other n there'
  have begun := planned.begun rel v other n member there'
  rw [← untouched.records v vault isOld there n] at begun
  unfold EnvVault.write
  dsimp only
  by_cases here : n = name
  · subst here
    rw [Function.update_self]
    rcases whole rel member with rfl | empty
    · exact begun.trans (copied_begins _ _)
    · rw [empty other there']
      exact List.nil_prefix
  · rw [Function.update_of_ne here]
    exact begun

/-- A prompt write keeps where the rekey is, with the old vaults as they are written. -/
theorem At.write {stage : Stage κ ν} (here : At old new start vaults stage) (isOld : ¬IsNew new v) (there : vaults v = some vault)
    (prompt : ∀ rel, (rel, v) ∈ stage.read → stage.awaits rel ∧ (dropped = 0 ∨
      ∀ other, vaults (NodeKeys.vaultId (derive new rel)) = some other → other.records name = [])) :
    At old new (Function.update start v (some (vault.write name version dropped)))
      (Function.update vaults v (some (vault.write name version dropped))) stage := by
  have unborn : (∀ u, IsNew new u → vaults u = none) →
      ∀ u, IsNew new u → Function.update vaults v (some (vault.write name version dropped)) u = none := by
    intro before u isNew
    rw [Function.update_of_ne]
    · exact before u isNew
    · rintro rfl
      exact isOld isNew
  have late : ∀ {rel}, (rel, v) ∈ stage.read → ¬stage.awaits rel → False := fun member waits => waits (prompt _ member).1
  cases stage with
  | idle => exact ⟨unborn here.1, here.2.write⟩
  | planning queue done =>
    have grows := update_grows (fun _ => True) (vault.write name version dropped) there fun _ _ listed => listed
    have walks : ∀ rel k, walk vaults old rel = some k → walk _ old rel = some k := fun rel k => walk_grows grows fun _ _ _ => trivial
    refine ⟨unborn here.unborn, here.untouched.write, here.root, fun rel k member => walks rel k (here.queued rel k member),
      ?_, here.parents, ?_⟩
    · intro rel u member
      obtain ⟨k, same, led⟩ := here.read rel u member
      exact ⟨k, same, walks rel k led⟩
    · intro rel k other seg e member there' listed
      by_cases same : NodeKeys.vaultId k = v
      · rw [same, Function.update_self] at there'
        obtain rfl := Option.some.inj there'
        exact here.closed rel k vault seg e member (by rw [same]; exact there) listed
      · rw [Function.update_of_ne same] at there'
        exact here.closed rel k other seg e member there' listed
  | running nodes step work =>
    cases step with
    | planned =>
      obtain ⟨planned, untouched⟩ := here
      exact ⟨planned.write isOld there (begins_after untouched isOld there planned fun rel member => (prompt rel member).2),
        untouched.write⟩
    | created =>
      obtain ⟨planned, untouched, works⟩ := here
      refine ⟨planned.write isOld there (begins_after untouched isOld there planned fun rel member => (prompt rel member).2),
        untouched.write, fun rest same => ?_⟩
      subst same
      obtain ⟨opened, either⟩ := works rest rfl
      refine ⟨opened, fun rel u member => ?_⟩
      by_cases written : u = v
      · subst written
        exact .inl (prompt rel member).1
      · exact (either rel u member).imp_right fun done => done.write isOld written
    | migrated | linked | retired =>
      obtain ⟨planned, all, works⟩ := here
      refine ⟨planned.write isOld there fun rel member => (late member id).elim, fun rel u member => ?_, works⟩
      apply (all rel u member).write isOld
      rintro rfl
      exact late member id
  | finished nodes =>
    obtain ⟨planned, all⟩ := here
    refine ⟨planned.write isOld there fun rel member => (late member id).elim, fun rel u member => ?_⟩
    apply (all rel u member).write isOld
    rintro rfl
    exact late member id

end Writes

/-! ## Runs -/

section Shared

variable [DecidableEq ν] {old new : κ} {s s' : Rekeying κ ν α ρ} {event : Option (κ × String)}

/-- Without additions an old vault that is there was there. -/
theorem Request.old_vaults (request : Request old new s event s') (quiet : s'.adding = []) (quiet' : s.adding = []) {v : ν}
    {vault : EnvVault κ α ρ} (isOld : ¬IsNew new v) (there : s'.vaults v = some vault) : s.vaults v = some vault := by
  have others : ∀ rel, v ≠ NodeKeys.vaultId (derive new rel) := by
    rintro rel rfl
    exact isOld ⟨rel, rfl⟩
  cases request with
  | @create nodes rel key rest stage =>
    rcases of_create_some there with before | ⟨same, _⟩
    · exact before
    · exact absurd same (others rel)
  | @copy nodes rel key rest oldVault newVault written stage _ _ => exact (Function.update_of_ne (others rel) ..).symm.trans there
  | @migrate nodes rel key rest oldVault newVault stage _ _ => exact (Function.update_of_ne (others rel) ..).symm.trans there
  | @retire nodes rel key rest stage =>
    cases key with
    | none => exact there
    | some key => exact of_delete_some there
  | addOpens _ _ _ | addCreates _ => cases quiet
  | addLists member _ =>
    rw [quiet'] at member
    cases member
  | _ => exact there

variable [DecidableEq α]

/-- The rekey is where it would be had the old vaults held at first what they were written
to hold, and the last version acknowledged is the last there. -/
structure Shared.Sound (old new : κ) (written : Hosted κ ν α ρ) (s : Shared κ ν α ρ) : Prop where
  fresh : Fresh old new written
  invariant : Invariant old new written s.rekey
  adding : s.rekey.adding = []
  added : s.rekey.added = []
  records : ∀ v vault, ¬IsNew new v → s.rekey.vaults v = some vault → ∀ name, vault.records name = versionsAt written v name
  acknowledged : ∀ v name version, s.acknowledged v name = some version → (versionsAt written v name).getLast? = some version

theorem SharedRequest.sound {s s' : Shared κ ν α ρ} {event : Option (ν × α × Nat)} {written : Hosted κ ν α ρ}
    (request : SharedRequest old new s event s') (prompt : Prompt new s event) (sound : s.Sound old new written) :
    ∃ written', s'.Sound old new written' := by
  cases request with
  | @rekey s event s' acknowledged request quiet =>
    have same := (request.quiet sound.adding).2
    exact ⟨written, sound.fresh, request.keeps sound.fresh (request.timely sound.adding) sound.invariant, quiet,
      same.trans sound.added,
      fun v vault isOld there => sound.records v vault isOld (request.old_vaults quiet sound.adding isOld there),
      sound.acknowledged⟩
  | @write s acknowledged v vault name version dropped isOld there =>
    refine ⟨Function.update written v (some (vault.write name version dropped)), ?_, ?_, sound.adding, sound.added, ?_, ?_⟩
    · refine { sound.fresh with unborn := ?_, listed := ?_ }
      · intro u isNew
        have other : u ≠ v := by
          rintro rfl
          exact isOld isNew
        rw [Function.update_of_ne other]
        exact sound.fresh.unborn u isNew
      · intro u other seg e key there' listed mode
        by_cases here : u = v
        · subst here
          rw [Function.update_self] at there'
          obtain rfl := Option.some.inj there'
          exact sound.invariant.base.listed u vault seg e key there listed mode
        · rw [Function.update_of_ne here] at there'
          exact sound.fresh.listed u other seg e key there' listed mode
    · have base := sound.invariant.base.of
        (update_derivesOnly (vault.write name version dropped) fun seg e listed => .inr ⟨vault, there, listed⟩)
      refine ⟨base, sound.invariant.stage.write isOld there (prompt v name dropped rfl), ?_, ?_⟩
      · intro rel parent seg made member
        rw [sound.adding] at member
        cases member
      · intro rel k member
        rw [sound.added] at member
        cases member
    · intro u other isOld' there' n
      dsimp only at there'
      by_cases here : u = v
      · subst here
        rw [versionsAt_self]
        rw [Function.update_self] at there'
        rw [← Option.some.inj there']
      · rw [versionsAt_other here]
        rw [Function.update_of_ne here] at there'
        exact sound.records u other isOld' there' n
    · intro u n last given
      dsimp only at given
      by_cases here : u = v
      · subst here
        rw [versionsAt_self]
        rw [Function.update_self] at given
        unfold EnvVault.write
        dsimp only
        by_cases named : n = name
        · subst named
          rw [Function.update_self] at given ⊢
          rw [List.getLast?_concat]
          exact given
        · rw [Function.update_of_ne named] at given ⊢
          rw [sound.records u vault isOld there n]
          exact sound.acknowledged u n last given
      · rw [versionsAt_other here]
        rw [Function.update_of_ne here] at given
        exact sound.acknowledged u n last given

/-- Before a rekey: nothing is planned or added, and what was acknowledged is there. -/
structure Shared.Begins (start : Shared κ ν α ρ) : Prop where
  stage : start.rekey.stage = .idle
  adding : start.rekey.adding = []
  added : start.rekey.added = []
  acknowledged : ∀ v name version, start.acknowledged v name = some version →
    (versionsAt start.rekey.vaults v name).getLast? = some version

theorem SharedRuns.sound {start s : Shared κ ν α ρ} (fresh : Fresh old new start.rekey.vaults) (begins : start.Begins)
    (run : SharedRuns (Prompt new) old new start s) : ∃ written, s.Sound old new written := by
  induction run with
  | start =>
    have inv := Invariant.begins fresh (.alone begins.stage begins.adding begins.added)
    refine ⟨start.rekey.vaults, fresh, inv, begins.adding, begins.added, fun v vault _ there name => ?_, begins.acknowledged⟩
    rw [versionsAt, there]
  | request _ request prompt inductionHypothesis =>
    obtain ⟨written, sound⟩ := inductionHypothesis
    exact request.sound prompt sound

end Shared

/-! ## A write after the migration -/

section Late

theorem plain_write : ¬IsNew (⟨true, []⟩ : RootedKey) (⟨false, []⟩ : RootedKey) := by
  rintro ⟨rel, same⟩
  rw [derive_rooted] at same
  cases same

end Late

end GalataVault.Owner
