import GalataVault.Library.Since
import GalataVault.Proto.Ids

/-!
# Copying without showing

A value goes to the system's clipboard on a tool's input, and is cleared later only if the
clipboard still holds it. What the clipboard holds is known only by asking a tool, so what was
copied is remembered by its digest.
-/

namespace GalataVault.Ui

open Proto

variable {σ : Type}

/-! ## The code -/

/-- What the clipboard's tools do. -/
structure Tools (σ : Type) where
  /-- Run the tool that copies. -/
  writeTo : σ → List UInt8 → Except String Unit × σ
  /-- Run the tool that pastes; nothing if it failed. -/
  readFrom : σ → Option (List UInt8) × σ

structure Clip where
  /-- Whether there are tools. -/
  available : Bool
  clearAfter : Nat
  /-- When to clear, and the digest of what was copied. -/
  due : List (Nat × Hash32)

section

variable [Digests]

def noTools : String := "copying needs pbcopy, wl-copy, xclip or xsel, and none was found; reveal the value instead"

def Clip.copy (clip : Clip) (tools : Tools σ) (world : σ) (now : Nat) (value : List UInt8) : Except String Unit × Clip × σ :=
  if clip.available then
    match tools.writeTo world value with
    | (.error e, world) => (.error e, clip, world)
    | (.ok (), world) =>
      let digest := Digests.sha256 value
      (.ok (), { clip with due := clip.due.filter (·.2 ≠ digest) ++ [(now + clip.clearAfter, digest)] }, world)
  else (.error noTools, clip, world)

def clearIf (tools : Tools σ) (world : σ) (digest : Hash32) : σ :=
  match tools.readFrom world with
  | (none, world) => world
  | (some current, world) => if Digests.sha256 current = digest then (tools.writeTo world []).2 else world

def Clip.clear (clip : Clip) (tools : Tools σ) (world : σ) (digests : List Hash32) : σ :=
  if clip.available then digests.foldl (clearIf tools) world else world

/-- Clear what is due, if the clipboard still holds it. -/
def Clip.tick (clip : Clip) (tools : Tools σ) (world : σ) (now : Nat) : Clip × σ :=
  ({ clip with due := clip.due.filter fun d => ¬d.1 ≤ now },
    clip.clear tools world ((clip.due.filter fun d => d.1 ≤ now).map Prod.snd))

/-- Clear everything still pending. -/
def Clip.clearAll (clip : Clip) (tools : Tools σ) (world : σ) : Clip × σ :=
  ({ clip with due := [] }, clip.clear tools world (clip.due.map Prod.snd))

/-! ## A clipboard -/

/-- A clipboard whose tools work. -/
def board : Tools (List UInt8) where
  writeTo _ value := (.ok (), value)
  readFrom content := (some content, content)

/-- What happens to a clipboard: a value is copied without showing, the timers are looked at, or
the user copies something. -/
inductive ClipInput where
  | copy (value : List UInt8) (now : Nat)
  | tick (now : Nat)
  | user (value : List UInt8)

/-- The clipboard's timers and what it holds. -/
def clipStep (state : Clip × List UInt8) : ClipInput → Clip × List UInt8
  | .copy value now => (state.1.copy board state.2 now value).2
  | .tick now => state.1.tick board state.2 now
  | .user value => (state.1, value)

theorem clear_board (clip : Clip) (available : clip.available = true) (content : List UInt8) (digests : List Hash32) :
    clip.clear board content digests = if Digests.sha256 content ∈ digests then [] else content := by
  rw [Clip.clear, if_pos available]
  induction digests generalizing content with
  | nil => rfl
  | cons digest rest inductionHypothesis =>
    have one : clearIf board content digest = if Digests.sha256 content = digest then [] else content := rfl
    rw [List.foldl_cons, one]
    by_cases same : Digests.sha256 content = digest
    · rw [if_pos same, if_pos (List.mem_cons.mpr (.inl same)), inductionHypothesis]
      split <;> rfl
    · rw [if_neg same, inductionHypothesis]
      simp [same]

theorem clipStep_available (state : Clip × List UInt8) (input : ClipInput) :
    (clipStep state input).1.available = state.1.available := by
  cases input with
  | copy value now =>
    rw [clipStep, Clip.copy]
    split <;> rfl
  | tick now => rfl
  | user value => rfl

/-- Whether there are tools does not change. -/
theorem run_available {clip : Clip} (available : clip.available = true) (history : List ClipInput) :
    (Machine.run clipStep (clip, []) history).1.available = true := by
  induction history using List.reverseRecOn with
  | nil => exact available
  | append_singleton before input inductionHypothesis =>
    rw [Machine.run_append]
    exact (clipStep_available _ input).trans inductionHypothesis

omit [Digests] in
theorem mem_digests {due : List (Nat × Hash32)} {digest : Hash32} : digest ∈ due.map Prod.snd ↔ ∃ moment, (moment, digest) ∈ due := by
  simp

/-- What stands on the clipboard, and was not put there by a copy that is still to be cleared,
was put there by the user. -/
theorem user_since {clip : Clip} (available : clip.available = true) (history : List ClipInput) {content : List UInt8}
    (holds : (Machine.run clipStep (clip, []) history).2 = content) (filled : content ≠ [])
    (unowed : Digests.sha256 content ∉ (Machine.run clipStep (clip, []) history).1.due.map Prod.snd) :
    Machine.Since clipStep (clip, []) (fun _ input => input = .user content) (fun state _ => state.2 = content) history := by
  refine Machine.Since.of_steps
    (fun state => state.2 = content ∧ Digests.sha256 content ∉ state.1.due.map Prod.snd ∧ state.1.available = true)
    (fun impossible => filled impossible.1.symm) (fun before input now => ?_) ⟨holds, unowed, run_available available history⟩
  · rw [Machine.run_append] at now
    generalize Machine.run clipStep (clip, []) before = state at now ⊢
    obtain ⟨now, unowed, ready⟩ := now
    have tools : state.1.available = true := (clipStep_available state input).symm.trans ready
    cases input with
    | copy value moment =>
      change (clipStep state (.copy value moment)).2 = content at now
      change _ ∉ (clipStep state (.copy value moment)).1.due.map Prod.snd at unowed
      rw [clipStep, Clip.copy, if_pos tools] at now unowed
      obtain rfl : value = content := now
      refine absurd (mem_digests.mpr ⟨moment + state.1.clearAfter, ?_⟩) unowed
      exact List.mem_append_right _ (List.mem_singleton_self _)
    | tick now' =>
      change state.1.clear board state.2 _ = content at now
      rw [clear_board state.1 tools] at now
      split at now
      · exact absurd now.symm filled
      · next kept =>
        subst now
        refine .inr ⟨⟨rfl, fun owed => ?_, tools⟩, rfl⟩
        obtain ⟨moment, entry⟩ := mem_digests.mp owed
        by_cases due : moment ≤ now'
        · exact kept (mem_digests.mpr ⟨moment, List.mem_filter.mpr ⟨entry, by simpa using due⟩⟩)
        · exact unowed (mem_digests.mpr ⟨moment, List.mem_filter.mpr ⟨entry, by simpa using due⟩⟩)
    | user value =>
      obtain rfl : value = content := now
      exact .inl rfl

/-- What is still to be cleared was copied. -/
theorem due_copied {clip : Clip} (none : clip.due = []) (history : List ClipInput) {digest : Hash32}
    (owed : digest ∈ (Machine.run clipStep (clip, []) history).1.due.map Prod.snd) :
    ∃ value now, .copy value now ∈ history ∧ Digests.sha256 value = digest := by
  induction history using List.reverseRecOn with
  | nil =>
    rw [Machine.run_nil, none] at owed
    cases owed
  | append_singleton before input inductionHypothesis =>
    rw [Machine.run_append] at owed
    generalize Machine.run clipStep (clip, []) before = state at owed inductionHypothesis
    have earlier : digest ∈ state.1.due.map Prod.snd → ∃ value now, .copy value now ∈ before ++ [input] ∧ Digests.sha256 value = digest := by
      intro owed
      obtain ⟨value, now, copied, same⟩ := inductionHypothesis owed
      exact ⟨value, now, List.mem_append_left _ copied, same⟩
    cases input with
    | copy value now =>
      change digest ∈ (clipStep state (.copy value now)).1.due.map Prod.snd at owed
      rw [clipStep, Clip.copy] at owed
      split at owed
      · obtain ⟨moment, entry⟩ := mem_digests.mp owed
        obtain kept | new := List.mem_append.mp entry
        · exact earlier (mem_digests.mpr ⟨moment, (List.mem_filter.mp kept).1⟩)
        · obtain ⟨_, rfl⟩ := Prod.mk.inj (List.mem_singleton.mp new)
          exact ⟨value, now, List.mem_append_right _ (List.mem_singleton_self _), rfl⟩
      · exact earlier owed
    | tick now =>
      obtain ⟨moment, entry⟩ := mem_digests.mp owed
      exact earlier (mem_digests.mpr ⟨moment, (List.mem_filter.mp entry).1⟩)
    | user value => exact earlier owed

/-- What the clipboard holds once everything pending is cleared. -/
def released (clip : Clip) (history : List ClipInput) : List UInt8 :=
  ((Machine.run clipStep (clip, []) history).1.clearAll board (Machine.run clipStep (clip, []) history).2).2

/-- For every run of copies, ticks and copies by the user, with tools that work: once everything
pending is cleared the clipboard holds nothing, or what the user copied last of all. And what the
user copied last of all is there, unless a value with its digest was copied without showing. -/
theorem clipboard_released {clip : Clip} (available : clip.available = true) (none : clip.due = []) (history : List ClipInput) :
    (released clip history = [] ∨
      Machine.Since clipStep (clip, []) (fun _ input => input = .user (released clip history))
        (fun state _ => state.2 = released clip history) history) ∧
    ∀ before later value, history = before ++ .user value :: later → (∀ input ∈ later, ∃ now, input = .tick now) →
      (∀ copied now, .copy copied now ∈ before → Digests.sha256 copied ≠ Digests.sha256 value) → released clip history = value := by
  have clears : released clip history = if Digests.sha256 (Machine.run clipStep (clip, []) history).2 ∈
      (Machine.run clipStep (clip, []) history).1.due.map Prod.snd then [] else (Machine.run clipStep (clip, []) history).2 :=
    clear_board _ (run_available available history) _ _
  constructor
  · rw [clears]
    split
    · exact .inl rfl
    · next unowed =>
      by_cases empty : (Machine.run clipStep (clip, []) history).2 = []
      · exact .inl empty
      · exact .inr (user_since available history rfl empty unowed)
  · rintro before later value rfl ticks apart
    have unowed : ∀ later : List ClipInput, (∀ input ∈ later, ∃ now, input = .tick now) →
        Digests.sha256 value ∉ (Machine.run clipStep (clip, []) (before ++ .user value :: later)).1.due.map Prod.snd := by
      intro later ticks owed
      obtain ⟨copied, now, member, same⟩ := due_copied none _ owed
      obtain early | late := List.mem_append.mp member
      · exact apart copied now early same
      · obtain isUser | tick := List.mem_cons.mp late
        · cases isUser
        · obtain ⟨_, impossible⟩ := ticks _ tick
          cases impossible
    have stays : ∀ later : List ClipInput, (∀ input ∈ later, ∃ now, input = .tick now) →
        (Machine.run clipStep (clip, []) (before ++ .user value :: later)).2 = value := by
      intro later ticks
      induction later using List.reverseRecOn with
      | nil =>
        rw [Machine.run_append]
        rfl
      | append_singleton earlier input inductionHypothesis =>
        have earlierTicks : ∀ input ∈ earlier, ∃ now, input = .tick now := fun i member => ticks i (List.mem_append_left _ member)
        obtain ⟨now, rfl⟩ := ticks input (List.mem_append_right _ (List.mem_singleton_self _))
        have was := inductionHypothesis earlierTicks
        have free := unowed earlier earlierTicks
        rw [← List.cons_append, ← List.append_assoc, Machine.run_append]
        have toolsReady := run_available available (before ++ .user value :: earlier)
        generalize Machine.run clipStep (clip, []) (before ++ .user value :: earlier) = state at was free toolsReady ⊢
        change state.1.clear board state.2 _ = value
        rw [clear_board state.1 toolsReady, was, if_neg]
        intro owed
        obtain ⟨moment, entry⟩ := mem_digests.mp owed
        exact free (mem_digests.mpr ⟨moment, (List.mem_filter.mp entry).1⟩)
    rw [clears, stays later ticks, if_neg (unowed later ticks)]

end

/-- A digest that can be run by hand: it is filled with the first byte. -/
@[reducible] def firstByte : Digests where
  sha256 input := ⟨.fill 32 (input.headD 0)⟩
  blake3DeriveKey _ input := ⟨.fill 32 (input.headD 0)⟩

/-- A value is copied without showing, and then the user copies something else. -/
theorem clipboard_released_user : @released firstByte ⟨true, 30, []⟩ [.copy [1] 0, .user [2], .tick 40] = [2] := by
  refine (@clipboard_released firstByte ⟨true, 30, []⟩ rfl rfl [.copy [1] 0, .user [2], .tick 40]).2
    [.copy [1] 0] [.tick 40] [2] rfl (fun input member => ⟨40, List.mem_singleton.mp member⟩) fun copied now member => ?_
  cases List.mem_singleton.mp member
  decide

end GalataVault.Ui
