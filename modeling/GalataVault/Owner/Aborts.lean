import GalataVault.Owner.Orphans

/-!
# Aborting a rekey

An abort deletes the new vaults, deepest first, and then forgets the plan. It saves no
step of its own: cut off in between, it leaves the plan at the step that was saved, and a
resumption goes on from there. So a node's records stay somewhere as long as the parent
is linked only while every new vault is there.

Nobody else writes. Whether the parent's entry was changed before an abort is not asked
here, so that more aborts are possible than there are.
-/

namespace GalataVault.Owner

variable {κ ν α ρ : Type} [NodeKeys κ ν]

/-- What the owner is doing with its plan. -/
inductive Phase where
  | rekeying
  /-- The nodes whose new vaults are still to be deleted. -/
  | aborting (work : List (List String))
  | aborted

structure Attempts (κ ν α ρ : Type) where
  rekey : Rekeying κ ν α ρ
  phase : Phase

/-- One request of a rekey that is resumed or aborted. -/
inductive Attempt [DecidableEq ν] (old new : κ) : Attempts κ ν α ρ → Attempts κ ν α ρ → Prop where
  | rekey {s event s'} : Request old new s event s' → s'.adding = [] → Attempt old new ⟨s, .rekeying⟩ ⟨s', .rekeying⟩
  | abort {s nodes step work} : s.stage = .running nodes step work →
      step = .planned ∨ step = .created ∨ step = .migrated →
      Attempt old new ⟨s, .rekeying⟩
        ⟨{ s with stage := .running nodes step none }, .aborting (nodes.reverse.map (·.1))⟩
  | delete {s rel rest} :
      Attempt old new ⟨s, .aborting (rel :: rest)⟩
        ⟨{ s with vaults := Function.update s.vaults (NodeKeys.vaultId (derive new rel)) none }, .aborting rest⟩
  | cut {s work} : Attempt old new ⟨s, .aborting work⟩ ⟨s, .rekeying⟩
  | forget {s} : Attempt old new ⟨s, .aborting []⟩ ⟨s, .aborted⟩

/-- The parent is linked only while every new vault is there. -/
def Intact (new : κ) (s s' : Attempts κ ν α ρ) : Prop :=
  ∀ nodes, s.rekey.stage = .running nodes .migrated none → s'.rekey.stage = .running nodes .linked none →
    ∀ rel v, (rel, v) ∈ nodes → (s.rekey.vaults (NodeKeys.vaultId (derive new rel))).isSome

/-- What a run may come to whose requests are all allowed. -/
inductive Attempted [DecidableEq ν] (allowed : Attempts κ ν α ρ → Attempts κ ν α ρ → Prop) (old new : κ)
    (start : Attempts κ ν α ρ) : Attempts κ ν α ρ → Prop where
  | start : Attempted allowed old new start start
  | attempt {s s' : Attempts κ ν α ρ} : Attempted allowed old new start s → Attempt old new s s' → allowed s s' →
      Attempted allowed old new start s'

/-- A node's records are all in its old vault, or copied in its new one. -/
def Held (start vaults : Hosted κ ν α ρ) (new : κ) (rel : List String) (v : ν) : Prop :=
  (∃ vault, vaults v = some vault ∧ ∀ name, vault.records name = versionsAt start v name) ∨
    ∃ vault, vaults (NodeKeys.vaultId (derive new rel)) = some vault ∧
      ∀ name, vault.records name = copied (versionsAt start v name)

/-- Before anything old is deleted. -/
def Stage.copying : Stage κ ν → Bool
  | .idle | .planning _ _ => true
  | .running _ step _ => step = .planned || step = .created || step = .migrated
  | .finished _ => false

/-- What holds of the vaults where a rekey is that may have been aborted. -/
def Safe (old new : κ) (start vaults : Hosted κ ν α ρ) : Stage κ ν → Prop
  | .running nodes .migrated _ => Planned old new start vaults nodes ∧ Untouched new start vaults ∧
      ∀ rel v, (rel, v) ∈ nodes → vaults (NodeKeys.vaultId (derive new rel)) = none ∨ Done new start vaults nodes rel v
  | stage => At old new start vaults stage

structure Preserved (old new : κ) (start : Hosted κ ν α ρ) (s : Rekeying κ ν α ρ) : Prop where
  base : Base new s.vaults
  stage : Safe old new start s.vaults s.stage
  /-- The vaults that were read are there. -/
  present : s.stage.copying = true → ∀ rel v, (rel, v) ∈ s.stage.read → (s.vaults v).isSome
  adding : s.adding = []
  added : s.added = []

section

variable {old new : κ} {start : Hosted κ ν α ρ} {s s' : Rekeying κ ν α ρ} {event : Option (κ × String)}

theorem Preserved.invariant (preserved : Preserved old new start s) (here : At old new start s.vaults s.stage) :
    Invariant old new start s where
  base := preserved.base
  stage := here
  adding rel parent seg made member := by
    rw [preserved.adding] at member
    cases member
  added rel k member := by
    rw [preserved.added] at member
    cases member

/-- Until something old is deleted, the old vaults hold what they held. -/
theorem Safe.untouched {vaults : Hosted κ ν α ρ} {stage : Stage κ ν} (safe : Safe old new start vaults stage)
    (copying : stage.copying = true) : Untouched new start vaults := by
  cases stage with
  | idle => exact safe.2
  | planning queue done => exact Reading.untouched safe
  | running nodes step work =>
    cases step with
    | planned => exact safe.2
    | created | migrated => exact safe.2.1
    | linked | retired => cases copying
  | finished nodes => cases copying

theorem Safe.planned {vaults : Hosted κ ν α ρ} {nodes : List (List String × ν)} {step : RekeyStep}
    {work : Option (List (List String × Option κ))} (safe : Safe old new start vaults (.running nodes step work)) :
    Planned old new start vaults nodes := by
  cases step <;> exact safe.1

/-- A vault that was read is an old one. -/
theorem Safe.foreign {vaults : Hosted κ ν α ρ} (fresh : Fresh old new start) (base : Base new vaults) {stage : Stage κ ν}
    (safe : Safe old new start vaults stage) {rel : List String} {v : ν} (member : (rel, v) ∈ stage.read) : ¬IsNew new v := by
  cases stage with
  | idle => cases member
  | planning queue done =>
    obtain ⟨k, rfl, walks⟩ := Reading.read safe rel v member
    exact base.walk_old fresh walks
  | running nodes step work => exact safe.planned.foreign rel v member
  | finished nodes => exact safe.1.foreign rel v member

/-- A node's records are somewhere. -/
theorem Preserved.held (fresh : Fresh old new start) (preserved : Preserved old new start s) {rel : List String} {v : ν}
    (member : (rel, v) ∈ s.stage.read) : Held start s.vaults new rel v := by
  have safe := preserved.stage
  by_cases copying : s.stage.copying = true
  · left
    obtain ⟨vault, there⟩ := Option.isSome_iff_exists.mp (preserved.present copying rel v member)
    exact ⟨vault, there, (safe.untouched copying).records v vault (safe.foreign fresh preserved.base member) there⟩
  · right
    cases stage : s.stage with
    | idle | planning _ _ =>
      rw [stage] at copying
      exact absurd rfl copying
    | running nodes step work =>
      rw [stage] at copying safe member
      cases step with
      | planned | created | migrated => exact absurd rfl copying
      | linked | retired =>
        obtain ⟨vault, there, copies, _⟩ := safe.2.1 rel v member
        exact ⟨vault, there, copies⟩
    | finished nodes =>
      rw [stage] at safe member
      obtain ⟨vault, there, copies, _⟩ := safe.2 rel v member
      exact ⟨vault, there, copies⟩

end

/-! ## Requests of the rekey -/

section Resumed

variable {old new : κ} {start : Hosted κ ν α ρ} {s s' : Rekeying κ ν α ρ} {event : Option (κ × String)}

theorem Safe.at {vaults : Hosted κ ν α ρ} {stage : Stage κ ν} (safe : Safe old new start vaults stage)
    (elsewhere : ∀ nodes work, stage ≠ .running nodes .migrated work) : At old new start vaults stage := by
  cases stage with
  | idle | planning _ _ | finished _ => exact safe
  | running nodes step work =>
    cases step with
    | planned | created | linked | retired => exact safe
    | migrated => exact absurd rfl (elsewhere nodes work)

variable [DecidableEq ν]

/-- Without additions under way nothing is added. -/
theorem Request.quiet (request : Request old new s event s') (quiet : s.adding = []) : event = none ∧ s'.added = s.added := by
  cases request with
  | addLists member there =>
    rw [quiet] at member
    cases member
  | _ => exact ⟨rfl, rfl⟩

theorem Request.timely (request : Request old new s event s') (quiet : s.adding = []) : Timely s event := by
  intro parent seg listed
  rw [(request.quiet quiet).1] at listed
  cases listed

/-- Nothing is deleted before the old vaults are, and what is read is there. -/
theorem Request.stays (request : Request old new s event s') (quiet : s'.adding = []) (copying : s'.stage.copying = true) :
    s.stage.copying = true ∧ (∀ v, (s.vaults v).isSome → (s'.vaults v).isSome) ∧
      ∀ rel v, (rel, v) ∈ s'.stage.read → (rel, v) ∈ s.stage.read ∨ (s.vaults v).isSome := by
  have updates : ∀ {vaults : Hosted κ ν α ρ} {u v : ν} (after : EnvVault κ α ρ), (vaults v).isSome →
      (Function.update vaults u (some after) v).isSome := by
    intro vaults u v after there
    by_cases here : v = u
    · subst here
      rw [Function.update_self]
      rfl
    · rwa [Function.update_of_ne here]
  cases request with
  | begin stage => exact ⟨by rw [stage]; rfl, fun _ there => there, fun _ _ member => (by cases member)⟩
  | @read rel key rest done vault below stage there opens =>
    refine ⟨by rw [stage]; rfl, fun _ there => there, fun rel' v member => ?_⟩
    rcases List.mem_append.mp member with before | here
    · exact .inl (by rw [stage]; exact before)
    · cases List.mem_singleton.mp here
      exact .inr (by rw [there]; rfl)
  | plan stage => exact ⟨by rw [stage]; rfl, fun _ there => there, fun _ _ member => .inl (by rw [stage]; exact member)⟩
  | resume stage => exact ⟨by rw [stage]; exact copying, fun _ there => there, fun _ _ member => .inl (by rw [stage]; exact member)⟩
  | toCreate stage | toCreated stage | toMigrated stage =>
    exact ⟨by rw [stage]; rfl, fun _ there => there, fun _ _ member => .inl (by rw [stage]; exact member)⟩
  | toOpen stage _ _ =>
    exact ⟨by rw [stage]; exact copying, fun _ there => there, fun _ _ member => .inl (by rw [stage]; exact member)⟩
  | create stage =>
    refine ⟨by rw [stage]; rfl, fun v there => ?_, fun _ _ member => .inl (by rw [stage]; exact member)⟩
    obtain ⟨vault, exists'⟩ := Option.isSome_iff_exists.mp there
    exact Option.isSome_iff_exists.mpr ⟨vault, create_of_some exists'⟩
  | copy stage there there' => exact ⟨copying, fun v there => updates _ there, fun _ _ member => .inl member⟩
  | migrate stage there there' =>
    exact ⟨by rw [stage]; rfl, fun v there => updates _ there, fun _ _ member => .inl (by rw [stage]; exact member)⟩
  | retire stage | toLinked stage | toRetired stage | finish stage => cases copying
  | addOpens _ _ _ | addCreates _ => cases quiet
  | addLists member there => exact ⟨copying, fun v there => updates _ there, fun _ _ member => .inl member⟩

/-- A request of the rekey keeps the records somewhere, if it links the parent only while
every new vault is there. -/
theorem Request.preserves (fresh : Fresh old new start) (request : Request old new s event s') (quiet : s'.adding = [])
    (intact : ∀ nodes, s.stage = .running nodes .migrated none → s'.stage = .running nodes .linked none →
      ∀ rel v, (rel, v) ∈ nodes → (s.vaults (NodeKeys.vaultId (derive new rel))).isSome)
    (preserved : Preserved old new start s) : Preserved old new start s' := by
  have safe := preserved.stage
  have present : s'.stage.copying = true → ∀ rel v, (rel, v) ∈ s'.stage.read → (s'.vaults v).isSome := by
    intro copying rel v member
    obtain ⟨before, stays, reads⟩ := request.stays quiet copying
    exact stays v ((reads rel v member).elim (preserved.present before rel v) id)
  have timely := request.timely preserved.adding
  -- Where the stage is not the one an abort may have damaged, the rekey goes on as it would.
  have goesOn : At old new start s.vaults s.stage → Invariant old new start s' := fun here =>
    request.keeps fresh timely (preserved.invariant here)
  have elsewhere : ∀ {stage : Stage κ ν}, s.stage = stage → (∀ nodes work, stage ≠ .running nodes .migrated work) →
      Invariant old new start s' := fun same other => goesOn (safe.at (by rw [same]; exact other))
  cases request with
  | begin stage | read stage _ _ | plan stage | toCreate stage | create stage | migrate stage _ _ | retire stage
  | toCreated stage | toRetired stage | finish stage =>
    have inv := elsewhere stage fun _ _ same => by cases same
    exact ⟨inv.base, inv.stage, present, preserved.adding, preserved.added⟩
  | copy stage _ _ =>
    have inv := elsewhere stage fun _ _ same => by cases same
    refine ⟨inv.base, ?_, present, preserved.adding, preserved.added⟩
    have here := inv.stage
    simp only [stage] at here ⊢
    exact here
  | @resume nodes step work stage =>
    cases step with
    | planned | created | linked | retired =>
      have inv := elsewhere stage fun _ _ same => by cases same
      exact ⟨inv.base, inv.stage, present, preserved.adding, preserved.added⟩
    | migrated =>
      rw [stage] at safe
      exact ⟨preserved.base, safe, present, preserved.adding, preserved.added⟩
  | toOpen stage which _ =>
    rcases which with rfl | rfl
    all_goals
      have inv := elsewhere stage fun _ _ same => by cases same
      exact ⟨inv.base, inv.stage, present, preserved.adding, preserved.added⟩
  | toMigrated stage =>
    have inv := elsewhere stage fun _ _ same => by cases same
    obtain ⟨planned, all, _⟩ := inv.stage
    have untouched := safe.untouched (by rw [stage]; rfl)
    exact ⟨inv.base, ⟨planned, untouched, fun rel v member => .inr (all rel v member)⟩, present, preserved.adding, preserved.added⟩
  | @toLinked nodes stage =>
    rw [stage] at safe
    obtain ⟨planned, _, either⟩ := safe
    refine ⟨preserved.base, ⟨planned, fun rel v member => ?_, fun rest impossible => (by cases impossible)⟩, present,
      preserved.adding, preserved.added⟩
    rcases either rel v member with gone | done
    · have there := intact nodes stage rfl rel v member
      rw [gone] at there
      cases there
    · exact done
  | addOpens _ _ _ | addCreates _ => cases quiet
  | addLists member _ =>
    rw [preserved.adding] at member
    cases member

end Resumed

/-! ## Aborts -/

section Aborted

variable [DecidableEq ν] {old new : κ} {start : Hosted κ ν α ρ} {s : Rekeying κ ν α ρ}

omit [DecidableEq ν] in
/-- An abort may begin until the parent is linked. -/
theorem Preserved.abort (preserved : Preserved old new start s) {nodes : List (List String × ν)} {step : RekeyStep}
    {work : Option (List (List String × Option κ))} (stage : s.stage = .running nodes step work)
    (undone : step = .planned ∨ step = .created ∨ step = .migrated) :
    Preserved old new start { s with stage := .running nodes step none } := by
  have safe := preserved.stage
  have present := preserved.present
  rw [stage] at safe present
  refine ⟨preserved.base, ?_, fun _ => ?_, preserved.adding, preserved.added⟩
  · rcases undone with rfl | rfl | rfl
    · exact safe
    · exact ⟨safe.1, safe.2.1, fun rest impossible => (by cases impossible)⟩
    · exact safe
  · rcases undone with rfl | rfl | rfl <;> exact present rfl

/-- An abort deletes a new vault. -/
theorem Preserved.deletes (fresh : Fresh old new start) (preserved : Preserved old new start s)
    {nodes : List (List String × ν)} {step : RekeyStep} (stage : s.stage = .running nodes step none)
    (undone : step = .planned ∨ step = .created ∨ step = .migrated) (rel : List String) :
    Preserved old new start
      { s with vaults := Function.update s.vaults (NodeKeys.vaultId (derive new rel)) none } := by
  have safe := preserved.stage
  have others : ∀ v, ¬IsNew new v → v ≠ NodeKeys.vaultId (derive new rel) := by
    rintro v isOld rfl
    exact isOld ⟨rel, rfl⟩
  have untouched : Untouched new start s.vaults := safe.untouched (by
    rw [stage]
    rcases undone with rfl | rfl | rfl <;> rfl)
  have untouched' : Untouched new start (Function.update s.vaults (NodeKeys.vaultId (derive new rel)) none) := by
    constructor
    · intro v isOld absent
      rw [Function.update_of_ne (others v isOld)] at absent
      exact untouched.absent v isOld absent
    · exact fun v vault isOld there => untouched.records v vault isOld (of_delete_some there)
  refine ⟨preserved.base.of fun v vault seg e there listed => .inr ⟨vault, of_delete_some there, listed⟩, ?_, ?_,
    preserved.adding, preserved.added⟩
  · change Safe old new start _ s.stage
    rw [stage] at safe ⊢
    rcases undone with rfl | rfl | rfl
    · exact ⟨safe.1.delete _, untouched'⟩
    · exact ⟨safe.1.delete _, untouched', fun rest impossible => (by cases impossible)⟩
    · refine ⟨safe.1.delete _, untouched', fun rel' v member => ?_⟩
      by_cases here : rel' = rel
      · subst here
        exact .inl (Function.update_self ..)
      · have other : NodeKeys.vaultId (derive new rel') ≠ NodeKeys.vaultId (derive new rel) := fun equal =>
          here (fresh.derive (fresh.injective equal))
        rcases safe.2.2 rel' v member with gone | ⟨vault, there, rest⟩
        · exact .inl ((Function.update_of_ne other ..).trans gone)
        · exact .inr ⟨vault, (Function.update_of_ne other ..).trans there, rest⟩
  · intro copying rel' v member
    change (Function.update s.vaults (NodeKeys.vaultId (derive new rel)) none v).isSome = true
    rw [Function.update_of_ne (others v (safe.foreign fresh preserved.base member))]
    exact preserved.present copying rel' v member

/-- The records are somewhere, and while an abort is under way the parent is not linked. -/
structure Attempts.Sound (old new : κ) (start : Hosted κ ν α ρ) (s : Attempts κ ν α ρ) : Prop where
  preserved : Preserved old new start s.rekey
  undone : ∀ work, s.phase = .aborting work → ∃ nodes step, s.rekey.stage = .running nodes step none ∧
    (step = .planned ∨ step = .created ∨ step = .migrated)

theorem Attempt.sound {s s' : Attempts κ ν α ρ} (fresh : Fresh old new start) (attempt : Attempt old new s s')
    (intact : Intact new s s') (sound : s.Sound old new start) : s'.Sound old new start := by
  cases attempt with
  | rekey request quiet =>
    refine ⟨request.preserves fresh quiet intact sound.preserved, fun work impossible => ?_⟩
    cases impossible
  | @abort s nodes step work stage undone =>
    exact ⟨sound.preserved.abort stage undone, fun _ _ => ⟨nodes, step, rfl, undone⟩⟩
  | @delete s rel rest =>
    obtain ⟨nodes, step, stage, undone⟩ := sound.undone _ rfl
    exact ⟨sound.preserved.deletes fresh stage undone rel, fun _ _ => ⟨nodes, step, stage, undone⟩⟩
  | cut =>
    refine ⟨sound.preserved, fun work impossible => ?_⟩
    cases impossible
  | forget =>
    refine ⟨sound.preserved, fun work impossible => ?_⟩
    cases impossible

/-- Before a rekey: nothing is planned, added or aborted. -/
structure Attempts.Begins (start : Attempts κ ν α ρ) : Prop where
  stage : start.rekey.stage = .idle
  adding : start.rekey.adding = []
  added : start.rekey.added = []
  phase : start.phase = .rekeying

theorem Attempted.sound {start s : Attempts κ ν α ρ} (fresh : Fresh old new start.rekey.vaults) (begins : start.Begins)
    (run : Attempted (Intact new) old new start s) : s.Sound old new start.rekey.vaults := by
  induction run with
  | start =>
    have inv := Invariant.begins fresh (.alone begins.stage begins.adding begins.added)
    refine ⟨⟨inv.base, ?_, ?_, begins.adding, begins.added⟩, ?_⟩
    · have here := inv.stage
      rw [begins.stage] at here ⊢
      exact here
    · intro _ rel v member
      rw [begins.stage] at member
      cases member
    · intro work impossible
      rw [begins.phase] at impossible
      cases impossible
  | attempt _ attempt intact inductionHypothesis => exact attempt.sound fresh intact inductionHypothesis

end Aborted

/-! ## An abort that is cut off -/

section Cut

/-- A vault with one record. -/
def tokenVault : EnvVault RootedKey String String where
  records name := if name = "token" then [some "t0"] else []
  children := .empty

end Cut

end GalataVault.Owner
