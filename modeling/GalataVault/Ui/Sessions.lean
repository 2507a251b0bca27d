import GalataVault.Library.Since
import GalataVault.Ui.Moves

/-!
# Sessions of the local page

Script that is injected into the page can ask, but it cannot answer. Over every run of terminal
lines, ticks and requests: what mints, revokes, rotates or deletes is a line at the terminal that
answers what the session on the page asked, with nothing typed in between and in time; a session
is of one link, and does not come back once it ended; and a minted token waits for the session
that asked for it alone.
-/

namespace GalataVault.Ui

open Proto

variable {σ : Type}

/-- How the application is started. -/
structure Launch (σ : Type) where
  origin : String
  host : String
  world : σ
  clip : Clip
  t : Timings

def Launch.app (launch : Launch σ) : App σ := App.new launch.origin launch.host launch.world launch.clip launch.t

section

variable [Digests] (acts : Acts σ) (reading : Reading) (launch : Launch σ)

/-- The application after a list of inputs. -/
def Launch.after (history : List App.Input) : App σ := Machine.run (App.step acts reading) launch.app history

/-! ## What is traced back -/

/-- A request of the session with that cookie asks for what then waits for an answer. -/
def AskedBy (cookie : String) (p : Pending) (app : App σ) (input : App.Input) : Prop :=
  ∃ raw draw req, input = .request raw draw ∧ FromPage app raw req ∧ OfSession app req cookie ∧ Asks acts reading app req draw.now p

/-- It waits: the session is on, nothing is typed, and the time for an answer is not over. -/
def Waiting (cookie : String) (p : Pending) (app : App σ) (input : App.Input) : Prop :=
  app.pending = some p ∧ app.standing.cookie = some cookie ∧ (∀ text now code, input ≠ .line text now code) ∧
    ∀ now, input = .tick now → elapsed now.pending p.asked ≤ app.t.confirmLapse

/-- A link's code is exchanged for a session with that cookie. -/
def Starts (cookie : String) (link : String × Nat) (app : App σ) (input : App.Input) : Prop :=
  (∃ raw draw req, input = .request raw draw ∧ draw.cookie = cookie ∧ FromPage app raw req ∧ app.code = some link ∧
    json reading.code req = .ok link.1) ∧ (App.step acts reading app input).code = none

/-- The session is on, and stays on. -/
def StaysOn (cookie : String) (app : App σ) (input : App.Input) : Prop :=
  app.standing.cookie = some cookie ∧ (App.step acts reading app input).standing.cookie = some cookie

/-- A link is printed. -/
def Prints (link : String × Nat) (_ : App σ) (input : App.Input) : Prop := ∃ text, input = .line text link.2 link.1

/-- The link is open, and stays open. -/
def StaysOpen (link : String × Nat) (app : App σ) (input : App.Input) : Prop :=
  app.code = some link ∧ (App.step acts reading app input).code = some link

/-- What is drawn at random for an input. -/
def drawn : App.Input → Option String
  | .line _ _ code => some code
  | .tick _ => none
  | .request _ draw => some draw.cookie

/-! ## Where nobody is on the page -/

variable {acts reading launch}

omit [Digests] in
theorem harmless_any : Harmless acts fun _ _ => True := by constructor <;> intros <;> trivial

theorem Launch.after_append (history more : List App.Input) :
    launch.after acts reading (history ++ more) = Machine.run (App.step acts reading) (launch.after acts reading history) more :=
  Machine.run_append ..

theorem Launch.after_step (history : List App.Input) (input : App.Input) :
    launch.after acts reading (history ++ [input]) = App.step acts reading (launch.after acts reading history) input :=
  Launch.after_append ..

theorem Launch.moves (history : List App.Input) (input : App.Input) :
    Moves acts reading (launch.after acts reading history) input (launch.after acts reading (history ++ [input])).standing := by
  rw [Launch.after_step]
  exact (step_moves harmless_any input).2

/-- While nobody is on the page, nothing waits. -/
theorem Launch.vacant (history : List App.Input) (nobody : (launch.after acts reading history).standing.cookie = none) :
    (launch.after acts reading history).pending = none ∧ (launch.after acts reading history).handover = none := by
  induction history using List.reverseRecOn with
  | nil => exact ⟨rfl, rfl⟩
  | append_singleton before input inductionHypothesis =>
    have moves : Moves acts reading (launch.after acts reading before) input _ := Launch.moves before input
    change (launch.after acts reading (before ++ [input])).standing.pending = _ ∧
      (launch.after acts reading (before ++ [input])).standing.handover = _
    generalize (launch.after acts reading (before ++ [input])).standing = standing at *
    cases moves with
    | stays => exact inductionHypothesis nobody
    | linked text now code alone =>
      refine ⟨rfl, ?_⟩
      cases on : (launch.after acts reading before).browser with
      | none => simpa [on] using (inductionHypothesis (by simp [App.standing, on])).2
      | some _ => simp
    | declined => exact ⟨rfl, (inductionHypothesis nobody).2⟩
    | confirmed text now code p waits =>
      have alone := (inductionHypothesis nobody).1
      rw [waits] at alone
      cases alone
    | lapsed now _ session code pending =>
      obtain ⟨sameCookie, sameHandover⟩ | ⟨_, noHandover, noPending⟩ := session
      · obtain ⟨alone, untaken⟩ := inductionHypothesis (sameCookie.symm.trans nobody)
        refine ⟨Option.eq_none_iff_forall_ne_some.mpr fun p waits => ?_, sameHandover.trans untaken⟩
        have earlier := (pending p waits).1
        rw [alone] at earlier
        cases earlier
      · exact ⟨noPending, noHandover⟩
    | started => cases nobody
    | served raw draw req cookie fromPage ofSession _ shifts =>
      have on := ofSession.session
      cases shifts with
      | locked => exact ⟨rfl, rfl⟩
      | stays =>
        rw [nobody] at on
        cases on
      | asks =>
        rw [show (launch.after acts reading before).standing.cookie = none from nobody] at on
        cases on
      | hands =>
        rw [show (launch.after acts reading before).standing.cookie = none from nobody] at on
        cases on

/-! ## What waits for an answer -/

theorem Launch.waits_since (history : List App.Input) {p : Pending} {cookie : String}
    (waits : (launch.after acts reading history).pending = some p ∧ (launch.after acts reading history).standing.cookie = some cookie) :
    Machine.Since (App.step acts reading) launch.app (AskedBy acts reading cookie p) (Waiting cookie p) history := by
  refine Machine.Since.of_steps (fun app => app.pending = some p ∧ app.standing.cookie = some cookie)
    (fun impossible => by cases impossible.1) (fun before input now => ?_) waits
  have moves : Moves acts reading (launch.after acts reading before) input _ := Launch.moves before input
  change (launch.after acts reading (before ++ [input])).standing.pending = _ ∧
    (launch.after acts reading (before ++ [input])).standing.cookie = _ at now
  change AskedBy acts reading cookie p (launch.after acts reading before) input ∨
    ((launch.after acts reading before).pending = _ ∧ (launch.after acts reading before).standing.cookie = _) ∧
      Waiting cookie p (launch.after acts reading before) input
  generalize (launch.after acts reading (before ++ [input])).standing = standing at *
  obtain ⟨waits, on⟩ := now
  cases moves with
  | stays input timely alone =>
    have typed : ∀ text now code, input ≠ .line text now code := by
      rintro text now code rfl
      have none := alone text now code rfl
      rw [show (launch.after acts reading before).pending = some p from waits] at none
      cases none
    exact .inr ⟨⟨waits, on⟩, waits, on, typed, fun now isTick => timely now p isTick waits⟩
  | linked => cases on
  | declined => cases waits
  | confirmed => cases waits
  | lapsed now _ session code pending =>
    obtain ⟨earlier, timely⟩ := pending p waits
    obtain ⟨sameCookie, _⟩ | ⟨noCookie, _⟩ := session
    · have was := sameCookie.symm.trans on
      refine .inr ⟨⟨earlier, was⟩, earlier, was, fun _ _ _ impossible => (by cases impossible), ?_⟩
      intro _ same
      cases same
      exact timely
    · rw [noCookie] at on
      cases on
  | started raw draw req fromPage code =>
    cases browser : (launch.after acts reading before).browser with
    | none =>
      have nobody : (launch.after acts reading before).standing.cookie = none := by simp [App.standing, browser]
      dsimp only at waits
      rw [browser, (Launch.vacant before nobody).1] at waits
      cases waits
    | some _ =>
      dsimp only at waits
      rw [browser] at waits
      cases waits
  | served raw draw req other fromPage ofSession _ shifts =>
    have quiet : (launch.after acts reading before).pending = some p → (launch.after acts reading before).standing.cookie = some cookie →
        Waiting cookie p (launch.after acts reading before) (.request raw draw) :=
      fun waits on => ⟨waits, on, fun _ _ _ impossible => (by cases impossible), fun _ impossible => (by cases impossible)⟩
    cases shifts with
    | stays => exact .inr ⟨⟨waits, on⟩, quiet waits on⟩
    | locked => cases on
    | asks q asks =>
      obtain rfl := Option.some.inj waits
      obtain rfl := Option.some.inj (ofSession.session.symm.trans on)
      exact .inl ⟨raw, draw, req, rfl, fromPage, ofSession, asks⟩
    | hands => exact .inr ⟨⟨waits, on⟩, quiet waits on⟩

/-- For every run, and whatever the calls do: an input changes the world harmlessly, or it is a
line that answers yes to what the session that is on asked for, from this page and with its mark;
since then that session has been on, nothing was typed, and no tick found the time over. -/
theorem confirmed_only {R : σ → σ → Prop} (harmless : Harmless acts R) (history : List App.Input) (input : App.Input) :
    R (launch.after acts reading history).world (launch.after acts reading (history ++ [input])).world ∨
    ∃ p cookie, Performs (launch.after acts reading history) input p ∧
      (launch.after acts reading history).standing.cookie = some cookie ∧
      Machine.Since (App.step acts reading) launch.app (AskedBy acts reading cookie p) (Waiting cookie p) history := by
  rw [Launch.after_step]
  refine (step_moves harmless input).1.imp_right fun ⟨p, performs⟩ => ?_
  obtain ⟨_, _, _, _, _, waits⟩ := id performs
  have occupied : (launch.after acts reading history).standing.cookie ≠ none := by
    intro nobody
    rw [(Launch.vacant history nobody).1] at waits
    cases waits
  obtain ⟨cookie, on⟩ := Option.ne_none_iff_exists'.mp occupied
  exact ⟨p, cookie, performs, on, Launch.waits_since history ⟨waits, on⟩⟩

/-! ## Sessions -/

theorem Launch.on_since (history : List App.Input) {cookie : String}
    (on : (launch.after acts reading history).standing.cookie = some cookie) :
    Machine.Since (App.step acts reading) launch.app (fun app input => ∃ link, Starts acts reading cookie link app input)
      (StaysOn acts reading cookie) history := by
  refine Machine.Since.of_steps (fun app => app.standing.cookie = some cookie) (fun impossible => by cases impossible)
    (fun before input now => ?_) on
  change (∃ link, Starts acts reading cookie link (launch.after acts reading before) input) ∨
    (launch.after acts reading before).standing.cookie = some cookie ∧ StaysOn acts reading cookie (launch.after acts reading before) input
  change (launch.after acts reading (before ++ [input])).standing.cookie = some cookie at now
  have moves : Moves acts reading (launch.after acts reading before) input _ := Launch.moves before input
  have stays : (launch.after acts reading before).standing.cookie = some cookie → _ ∧
      StaysOn acts reading cookie (launch.after acts reading before) input :=
    fun was => ⟨was, was, by rw [← Launch.after_step]; exact now⟩
  have codeNow : (App.step acts reading (launch.after acts reading before) input).code =
      (launch.after acts reading (before ++ [input])).standing.code := by
    rw [Launch.after_step]
    rfl
  unfold Starts
  rw [codeNow]
  generalize (launch.after acts reading (before ++ [input])).standing = standing at *
  cases moves with
  | stays => exact .inr (stays now)
  | linked => cases now
  | declined => exact .inr (stays now)
  | confirmed => exact .inr (stays now)
  | lapsed _ _ session =>
    obtain ⟨same, _⟩ | ⟨ended, _⟩ := session
    · exact .inr (stays (same.symm.trans now))
    · rw [ended] at now
      cases now
  | started raw draw req fromPage code opened given =>
    exact .inl ⟨code, ⟨raw, draw, req, rfl, Option.some.inj now, fromPage, opened, given⟩, rfl⟩
  | served raw draw req other fromPage ofSession _ shifts =>
    cases shifts with
    | stays => exact .inr (stays now)
    | locked => cases now
    | asks => exact .inr (stays now)
    | hands => exact .inr (stays now)

theorem Launch.open_since (history : List App.Input) {link : String × Nat}
    (opened : (launch.after acts reading history).code = some link) :
    Machine.Since (App.step acts reading) launch.app (Prints link) (StaysOpen acts reading link) history := by
  refine Machine.Since.of_steps (fun app => app.code = some link) (fun impossible => by cases impossible)
    (fun before input now => ?_) opened
  change Prints link (launch.after acts reading before) input ∨
    (launch.after acts reading before).code = some link ∧ StaysOpen acts reading link (launch.after acts reading before) input
  change (launch.after acts reading (before ++ [input])).standing.code = some link at now
  have moves : Moves acts reading (launch.after acts reading before) input _ := Launch.moves before input
  have stays : (launch.after acts reading before).code = some link → _ ∧
      StaysOpen acts reading link (launch.after acts reading before) input :=
    fun was => ⟨was, was, by rw [← Launch.after_step]; exact now⟩
  generalize (launch.after acts reading (before ++ [input])).standing = standing at *
  cases moves with
  | stays => exact .inr (stays now)
  | linked text now' code =>
    obtain rfl := Option.some.inj now
    exact .inl ⟨text, rfl⟩
  | declined => exact .inr (stays now)
  | confirmed => exact .inr (stays now)
  | lapsed _ _ _ code =>
    obtain same | closed := code
    · exact .inr (stays (same.symm.trans now))
    · rw [closed] at now
      cases now
  | started => cases now
  | served raw draw req other fromPage ofSession _ shifts => cases shifts <;> exact .inr (stays now)

omit [Digests] in
/-- Where no two inputs draw the same, what was drawn tells the input. -/
theorem drawn_once {history before after before' after' : List App.Input} {input input' : App.Input} {text : String}
    (distinct : (history.filterMap drawn).Nodup) (split : history = before ++ input :: after) (split' : history = before' ++ input' :: after')
    (draws : drawn input = some text) (draws' : drawn input' = some text) : before = before' ∧ input = input' ∧ after = after' := by
  have apart : ∀ {b m a : List App.Input} {i j : App.Input}, history = b ++ i :: (m ++ j :: a) → drawn i = some text →
      drawn j = some text → False := by
    intro b m a i j same first second
    rw [same, List.filterMap_append, List.filterMap_cons_some first, List.filterMap_append, List.filterMap_cons_some second] at distinct
    exact (List.nodup_cons.mp (List.nodup_append.mp distinct).2.1).1 (List.mem_append_right _ List.mem_cons_self)
  obtain ⟨middle, rfl, rest⟩ | ⟨middle, rfl, rest⟩ := List.append_eq_append_iff.mp (split.symm.trans split')
  · cases middle with
    | nil =>
      obtain ⟨rfl, rfl⟩ := List.cons.inj rest
      exact ⟨(List.append_nil _).symm, rfl, rfl⟩
    | cons first others =>
      obtain ⟨rfl, rfl⟩ := List.cons.inj rest
      exact (apart split draws draws').elim
  · cases middle with
    | nil =>
      obtain ⟨rfl, rfl⟩ := List.cons.inj rest
      exact ⟨List.append_nil _, rfl, rfl⟩
    | cons first others =>
      obtain ⟨rfl, rfl⟩ := List.cons.inj rest
      exact (apart split' draws' draws).elim

theorem Launch.after_mid (before after : List App.Input) (input : App.Input) :
    Machine.run (App.step acts reading) (App.step acts reading (launch.after acts reading before) input) after =
      launch.after acts reading (before ++ input :: after) := by
  rw [← Launch.after_step, ← Launch.after_append, List.append_assoc, List.singleton_append]

/-- In every run for which no two draws are the same, a session is of one link and one stretch of
the run. Whoever is on the page has been since they exchanged the code of a link that was open
since it was printed; a session that ended does not come back, and no two sessions are of one link. -/
theorem sessions_once (history : List App.Input) (distinct : (history.filterMap drawn).Nodup) :
    (∀ cookie, (launch.after acts reading history).standing.cookie = some cookie →
      ∃ before input later link, history = before ++ input :: later ∧
        Starts acts reading cookie link (launch.after acts reading before) input ∧
        Machine.Since (App.step acts reading) launch.app (Prints link) (StaysOpen acts reading link) before ∧
        ∀ middle, middle <+: later → (launch.after acts reading (before ++ input :: middle)).standing.cookie = some cookie) ∧
    (∀ before middle later cookie, history = before ++ middle ++ later →
      (launch.after acts reading before).standing.cookie = some cookie →
      (launch.after acts reading history).standing.cookie = some cookie →
      (launch.after acts reading (before ++ middle)).standing.cookie = some cookie) ∧
    ∀ before first between second later cookie cookie' link link', history = before ++ first :: (between ++ second :: later) →
      Starts acts reading cookie link (launch.after acts reading before) first →
      Starts acts reading cookie' link' (launch.after acts reading (before ++ first :: between)) second → link.1 ≠ link'.1 := by
  have stretch : ∀ {before later cookie} {input : App.Input},
      Machine.Throughout (App.step acts reading) (StaysOn acts reading cookie)
        (App.step acts reading (launch.after acts reading before) input) later →
      (launch.after acts reading (before ++ input :: later)).standing.cookie = some cookie →
      ∀ middle, middle <+: later → (launch.after acts reading (before ++ input :: middle)).standing.cookie = some cookie := by
    rintro before later cookie input throughout now middle ⟨rest, rfl⟩
    cases rest with
    | nil => rwa [List.append_nil] at now
    | cons next rest =>
      obtain ⟨_, met, _⟩ := throughout.split
      rw [Launch.after_mid] at met
      exact met.1
  refine ⟨?_, ?_, ?_⟩
  · intro cookie on
    obtain ⟨before, input, later, rfl, ⟨link, starts⟩, throughout⟩ := Launch.on_since history on
    obtain ⟨_, _, _, _, _, _, opened, _⟩ := starts.1
    exact ⟨before, input, later, link, rfl, starts, Launch.open_since before opened, stretch throughout on⟩
  · rintro before middle later cookie rfl was now
    obtain ⟨b, i, a, split, ⟨link, ⟨raw, draw, _, rfl, drew, _⟩, _⟩, _⟩ := Launch.on_since before was
    obtain ⟨b', i', a', split', ⟨link', ⟨raw', draw', _, rfl, drew', _⟩, _⟩, throughout⟩ := Launch.on_since _ now
    have whole : before ++ middle ++ later = b ++ .request raw draw :: (a ++ middle ++ later) := by simp [split]
    obtain ⟨rfl, same, rfl⟩ := drawn_once distinct whole split' (congrArg some drew) (congrArg some drew')
    rw [← same] at throughout split'
    have met := stretch throughout (by rwa [← split']) (a ++ middle) ⟨later, rfl⟩
    rwa [split, List.append_assoc, List.cons_append]
  · rintro before first between second later cookie cookie' link link' rfl starts starts' same
    obtain ⟨⟨_, _, _, _, _, _, opened, _⟩, closed⟩ := starts
    obtain ⟨⟨_, _, _, _, _, _, opened', _⟩, _⟩ := starts'
    obtain ⟨b, i, a, rfl, ⟨text, rfl⟩, _⟩ := Launch.open_since before opened
    obtain ⟨b', i', a', split', ⟨text', rfl⟩, throughout⟩ := Launch.open_since _ opened'
    have whole : b ++ App.Input.line text link.2 link.1 :: a ++ first :: (between ++ second :: later) =
        b ++ .line text link.2 link.1 :: (a ++ first :: (between ++ second :: later)) := by simp
    have whole' : b ++ App.Input.line text link.2 link.1 :: a ++ first :: (between ++ second :: later) =
        b' ++ .line text' link'.2 link'.1 :: (a' ++ second :: later) := by
      rw [← List.cons_append, ← List.append_assoc, split']
      simp
    obtain ⟨rfl, printed, rest⟩ := drawn_once distinct whole whole' rfl (congrArg some same.symm)
    have between' : a' = a ++ first :: between := by
      refine List.append_cancel_right (rest.symm.trans ?_)
      simp
    subst between'
    obtain ⟨_, met, _⟩ := throughout.split
    have here : (App.step acts reading (launch.after acts reading (b ++ .line text link.2 link.1 :: a)) first).code = some link' := by
      rw [← Launch.after_mid, printed]
      exact met.2
    rw [closed] at here
    cases here

/-! ## Tokens that wait to be taken -/

theorem Launch.handover_since (history : List App.Input) {ho : Handover} {cookie : String}
    (waits : (launch.after acts reading history).handover = some ho ∧ (launch.after acts reading history).standing.cookie = some cookie) :
    Machine.Since (App.step acts reading) launch.app
      (fun app input => (∃ p, Performs app input p ∧ Minted ho p) ∧ app.standing.cookie = some cookie)
      (fun app _ => app.handover = some ho ∧ app.standing.cookie = some cookie) history := by
  refine Machine.Since.of_steps (fun app => app.handover = some ho ∧ app.standing.cookie = some cookie)
    (fun impossible => by cases impossible.1) (fun before input now => ?_) waits
  have moves : Moves acts reading (launch.after acts reading before) input _ := Launch.moves before input
  change (launch.after acts reading (before ++ [input])).standing.handover = _ ∧
    (launch.after acts reading (before ++ [input])).standing.cookie = _ at now
  change ((∃ p, Performs (launch.after acts reading before) input p ∧ Minted ho p) ∧
      (launch.after acts reading before).standing.cookie = some cookie) ∨
    ((launch.after acts reading before).handover = _ ∧ (launch.after acts reading before).standing.cookie = _) ∧
      (launch.after acts reading before).handover = _ ∧ (launch.after acts reading before).standing.cookie = _
  generalize (launch.after acts reading (before ++ [input])).standing = standing at *
  obtain ⟨waits, on⟩ := now
  cases moves with
  | stays => exact .inr ⟨⟨waits, on⟩, waits, on⟩
  | linked => cases on
  | declined => exact .inr ⟨⟨waits, on⟩, waits, on⟩
  | confirmed text now code p asked yes handover own =>
    obtain rfl | ⟨minted, rfl, of⟩ := own
    · exact .inr ⟨⟨waits, on⟩, waits, on⟩
    · obtain rfl := Option.some.inj waits
      exact .inl ⟨⟨p, ⟨text, now, code, rfl, yes, asked⟩, of⟩, on⟩
  | lapsed _ _ session =>
    obtain ⟨sameCookie, sameHandover⟩ | ⟨ended, _⟩ := session
    · exact .inr ⟨⟨sameHandover.symm.trans waits, sameCookie.symm.trans on⟩, sameHandover.symm.trans waits, sameCookie.symm.trans on⟩
    · rw [ended] at on
      cases on
  | started =>
    cases browser : (launch.after acts reading before).browser with
    | none =>
      have nobody : (launch.after acts reading before).standing.cookie = none := by simp [App.standing, browser]
      dsimp only at waits
      rw [browser, (Launch.vacant before nobody).2] at waits
      cases waits
    | some _ =>
      dsimp only at waits
      rw [browser] at waits
      cases waits
  | served raw draw req other fromPage ofSession _ shifts =>
    cases shifts with
    | stays => exact .inr ⟨⟨waits, on⟩, waits, on⟩
    | locked => cases on
    | asks => exact .inr ⟨⟨waits, on⟩, waits, on⟩
    | hands => cases waits

/-- In every run, a token that waits to be taken was minted by a line that answered yes to what
the session that is on asked for; that session has been on since it asked, and the token has
waited since it was minted. -/
theorem handover_of_session (history : List App.Input) :
    (launch.after acts reading history).handover = none ∨
    ∃ ho cookie p before yes later, (launch.after acts reading history).handover = some ho ∧ history = before ++ yes :: later ∧
      Performs (launch.after acts reading before) yes p ∧ Minted ho p ∧
      Machine.Since (App.step acts reading) launch.app (AskedBy acts reading cookie p) (Waiting cookie p) before ∧
      ∀ middle, middle <+: later → (launch.after acts reading (before ++ yes :: middle)).handover = some ho ∧
        (launch.after acts reading (before ++ yes :: middle)).standing.cookie = some cookie := by
  cases waits : (launch.after acts reading history).handover with
  | none => exact .inl rfl
  | some ho =>
    have occupied : (launch.after acts reading history).standing.cookie ≠ none := by
      intro nobody
      rw [(Launch.vacant history nobody).2] at waits
      cases waits
    obtain ⟨cookie, on⟩ := Option.ne_none_iff_exists'.mp occupied
    obtain ⟨before, yes, later, rfl, ⟨⟨p, performs, minted⟩, was⟩, throughout⟩ := Launch.handover_since history ⟨waits, on⟩
    obtain ⟨_, _, _, _, _, asked⟩ := id performs
    refine .inr ⟨ho, cookie, p, before, yes, later, rfl, rfl, performs, minted, Launch.waits_since before ⟨asked, was⟩, ?_⟩
    rintro middle ⟨rest, rfl⟩
    cases rest with
    | nil =>
      rw [List.append_nil] at waits on
      exact ⟨waits, on⟩
    | cons next rest =>
      obtain ⟨_, met, _⟩ := throughout.split
      change (Machine.run (App.step acts reading) (App.step acts reading (launch.after acts reading before) yes) middle).handover = _ ∧
        (Machine.run (App.step acts reading) (App.step acts reading (launch.after acts reading before) yes) middle).standing.cookie = _ at met
      rwa [Launch.after_mid] at met

end

/-! ## A launch -/

/-- A world that counts the tokens that were minted, in which nothing else can be done. -/
def counting : Acts Nat where
  tools := ⟨fun w _ => (.error "", w), fun w => (none, w)⟩
  save w := w
  renderError e := e
  projectsPage w := (.error "", w)
  envPage w _ _ _ := (.error "", w)
  secret w _ _ _ := (.error "", w)
  setSecretExpecting w _ _ _ _ := (.error (.other ""), w)
  deleteSecret w _ _ _ := (.error (.other ""), w)
  envAdd w _ := (.error "", w)
  tokens w _ := (.error "", w)
  requireKnown _ _ := .error ""
  descendants _ _ := .error ""
  createPrivate w _ _ := (.error "", w)
  mint w _ _ _ := (.ok ⟨"", "", ""⟩, w + 1)
  revoke w _ _ _ := (.error "", w)
  rotate w _ := (.error "", w)
  envRemove w _ _ := (.error "", w)

/-- Nothing can be read. -/
def unread : Reading :=
  ⟨fun _ => .error "", fun _ => .error "", fun _ => .error "", fun _ => .error "", fun _ => .error "", fun _ => .error "",
    fun _ => .error "", fun _ => .error "", fun _ => .error "", fun _ => .error ""⟩

def emptyLaunch : Launch Nat := ⟨"http://127.0.0.1:5000", "127.0.0.1:5000", 0, ⟨false, 30, []⟩, ⟨60, 900, 120, 10⟩⟩

theorem counting_harmless : Harmless counting (· = ·) := by
  constructor <;> intros <;> first | rfl | exact Eq.trans ‹_› ‹_›

/-- A line that is typed while nothing waits mints nothing. -/
theorem confirmed_only_counting :
    (@Launch.after _ firstByte counting unread emptyLaunch []).world =
      (@Launch.after _ firstByte counting unread emptyLaunch ([] ++ [.line "y" 0 "c0de"])).world := by
  obtain same | ⟨p, cookie, ⟨_, _, _, _, _, waits⟩, _⟩ :=
    @confirmed_only _ firstByte counting unread emptyLaunch _ counting_harmless [] (.line "y" 0 "c0de")
  · exact same
  · cases waits

/-- Every body spells the code of the link. -/
def oneCode : Reading := { unread with code := fun _ => .ok "c0de" }

/-- A link is printed, and the page exchanges its code. -/
def linkOpened : List App.Input :=
  [.line "" 0 "c0de",
    .request ⟨"POST", "/session", [("Host", "127.0.0.1:5000"), ("Origin", "http://127.0.0.1:5000"), ("X-GV-UI", "1")], some []⟩
      ⟨0, 1, "c00c1e", ""⟩]

/-- The session of a link that was opened is of that link. -/
theorem sessions_once_opened :
    ∃ before input later link, linkOpened = before ++ input :: later ∧
      @Starts _ firstByte counting oneCode "c00c1e" link (@Launch.after _ firstByte counting oneCode emptyLaunch before) input ∧
      Machine.Since (@App.step _ firstByte counting oneCode) emptyLaunch.app (Prints link)
        (@StaysOpen _ firstByte counting oneCode link) before ∧
      ∀ middle, middle <+: later →
        (@Launch.after _ firstByte counting oneCode emptyLaunch (before ++ input :: middle)).standing.cookie = some "c00c1e" :=
  (@sessions_once _ firstByte counting oneCode emptyLaunch linkOpened (by decide)).1 "c00c1e" (by decide +kernel)

end GalataVault.Ui
