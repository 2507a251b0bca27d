import GalataVault.Ui.App

/-!
# What a step of the local page can do

Of all its state, what the page's safety rests on is who is on the page, which link is open, what
waits for an answer, and which token waits to be taken. Each input changes these in one of a few
ways, each under its own guard; and what only a confirmed request may do to the world, no other
input does.
-/

namespace GalataVault.Ui

open Proto
open Formats (Path)
open Server (trimBoth isWhitespace)

variable {σ : Type}

/-- Who is on the page, which link is open, what waits for an answer, and what waits to be taken. -/
structure Standing where
  cookie : Option String
  code : Option (String × Nat)
  pending : Option Pending
  handover : Option Handover
  nextId : Nat

def App.standing (app : App σ) : Standing :=
  ⟨app.browser.map Browser.cookie, app.code, app.pending, app.handover, app.nextId⟩

/-- A relation between worlds that every call respects but those that mint, revoke, rotate or
delete: what only these change. -/
structure Harmless (acts : Acts σ) (R : σ → σ → Prop) : Prop where
  refl : ∀ w, R w w
  trans : ∀ {a b c}, R a b → R b c → R a c
  writeTo : ∀ w value, R w (acts.tools.writeTo w value).2
  readFrom : ∀ w, R w (acts.tools.readFrom w).2
  save : ∀ w, R w (acts.save w)
  projectsPage : ∀ w, R w (acts.projectsPage w).2
  envPage : ∀ w env tab req, R w (acts.envPage w env tab req).2
  secret : ∀ w env name version, R w (acts.secret w env name version).2
  setSecretExpecting : ∀ w env name value expected, R w (acts.setSecretExpecting w env name value expected).2
  deleteSecret : ∀ w env name expected, R w (acts.deleteSecret w env name expected).2
  envAdd : ∀ w path, R w (acts.envAdd w path).2
  tokens : ∀ w env, R w (acts.tokens w env).2
  createPrivate : ∀ w path content, R w (acts.createPrivate w path content).2

/-- Nothing but the world, the clipboard's timers and the outcomes changed, and the world
harmlessly. -/
structure Calm (R : σ → σ → Prop) (app after : App σ) : Prop where
  world : R app.world after.world
  standing : after.standing = app.standing

section

variable {acts : Acts σ} {R : σ → σ → Prop} {app : App σ} {reading : Reading}

theorem Harmless.then (harmless : Harmless acts R) {α : Type} {a w w' : σ} {result : α × σ} {value : α} (before : R a w)
    (respected : R w result.2) (is : result = (value, w')) : R a w' := by
  rw [is] at respected
  exact harmless.trans before respected

section

variable [Digests]

theorem Clip.copy_calm (harmless : Harmless acts R) {clip after : Clip} {world left : σ} {now : Nat} {value : List UInt8}
    {result : Except String Unit} (is : clip.copy acts.tools world now value = (result, after, left)) : R world left := by
  unfold Clip.copy at is
  split at is
  · split at is
    all_goals
      next writes =>
      cases is
      exact harmless.then (harmless.refl _) (harmless.writeTo _ _) writes
  · cases is
    exact harmless.refl _

theorem clearIf_calm (harmless : Harmless acts R) (world : σ) (digest : Hash32) : R world (clearIf acts.tools world digest) := by
  unfold clearIf
  split
  · next is => exact harmless.then (harmless.refl _) (harmless.readFrom _) is
  · next is =>
    have read := harmless.then (harmless.refl _) (harmless.readFrom _) is
    split
    · exact harmless.trans read (harmless.writeTo _ _)
    · exact read

theorem Clip.clear_calm (harmless : Harmless acts R) (clip : Clip) (digests : List Hash32) (world : σ) :
    R world (clip.clear acts.tools world digests) := by
  unfold Clip.clear
  split
  · induction digests generalizing world with
    | nil => exact harmless.refl _
    | cons digest rest inductionHypothesis =>
      exact harmless.trans (clearIf_calm harmless world digest) (inductionHypothesis _)
  · exact harmless.refl _

end

/-! ## Requests that change nothing of the session -/

theorem reveal_calm (harmless : Harmless acts R) (req : Req) : Calm R app (app.reveal acts reading req).2 := by
  unfold App.reveal
  split
  · exact ⟨harmless.refl _, rfl⟩
  · split <;> next is => exact ⟨harmless.then (harmless.refl _) (harmless.secret _ _ _ _) is, rfl⟩

theorem write_calm (harmless : Harmless acts R) (env name : String) (value : List UInt8) (expected : Option Nat) :
    Calm R app (app.write acts env name value expected).2 := by
  unfold App.write
  split
  · exact ⟨harmless.refl _, rfl⟩
  · exact ⟨harmless.setSecretExpecting _ _ _ _ _, rfl⟩

theorem set_calm (harmless : Harmless acts R) (req : Req) : Calm R app (app.set acts reading req).2 := by
  unfold App.set
  split
  · exact ⟨harmless.refl _, rfl⟩
  · exact write_calm harmless _ _ _ _

theorem delete_calm (harmless : Harmless acts R) (req : Req) : Calm R app (app.delete acts reading req).2 := by
  unfold App.delete
  split
  · exact ⟨harmless.refl _, rfl⟩
  · exact ⟨harmless.deleteSecret _ _ _ _, rfl⟩

theorem restore_calm (harmless : Harmless acts R) (req : Req) : Calm R app (app.restore acts reading req).2 := by
  unfold App.restore
  split
  · exact ⟨harmless.refl _, rfl⟩
  · next b _ _ =>
    split
    · next is => exact ⟨harmless.then (harmless.refl _) (harmless.secret _ _ _ _) is, rfl⟩
    · next value _ world is =>
      have opened := harmless.then (harmless.refl _) (harmless.secret _ _ _ _) is
      have calm : Calm R ({ app with world } : App σ) _ := write_calm harmless b.env b.name value b.expected
      exact ⟨harmless.trans opened calm.world, calm.standing⟩

theorem addEnv_calm (harmless : Harmless acts R) (req : Req) : Calm R app (app.addEnv acts reading req).2 := by
  unfold App.addEnv
  split
  · exact ⟨harmless.refl _, rfl⟩
  · split <;> next is => exact ⟨harmless.then (harmless.refl _) (harmless.envAdd _ _) is, rfl⟩

theorem get_calm (harmless : Harmless acts R) (req : Req) : Calm R app (app.get acts req).2 := by
  unfold App.get
  split
  · exact ⟨harmless.refl _, rfl⟩
  split
  · exact ⟨harmless.projectsPage _, rfl⟩
  split
  · exact ⟨harmless.refl _, rfl⟩
  split
  · exact ⟨harmless.refl _, rfl⟩
  split
  · exact ⟨harmless.refl _, rfl⟩
  · exact ⟨harmless.refl _, rfl⟩
  · exact ⟨harmless.envPage _ _ _ _, rfl⟩

theorem copy_calm [Digests] (harmless : Harmless acts R) (req : Req) (now : Nat) :
    Calm R app (app.copy acts reading req now).2 := by
  unfold App.copy
  split
  · exact ⟨harmless.refl _, rfl⟩
  · split
    · next is => exact ⟨harmless.then (harmless.refl _) (harmless.secret _ _ _ _) is, rfl⟩
    · next is =>
      have opened := harmless.then (harmless.refl _) (harmless.secret _ _ _ _) is
      split <;> next copies => exact ⟨harmless.trans opened (Clip.copy_calm harmless copies), rfl⟩

/-! ## Requests that change something of the session -/

/-- What a request asks to be confirmed, as it is asked: nothing else waits for an answer. -/
structure Asks (acts : Acts σ) (reading : Reading) (app : App σ) (req : Req) (now : Nat) (p : Pending) : Prop where
  alone : app.pending = none
  decided : (App.asked acts reading app.world req).1 = .ok (p.env, p.op)
  id : p.id = app.nextId
  asked : p.asked = now

/-- What a request of a session may do to who is on the page, what waits for an answer, and what
waits to be taken. -/
inductive Shifts (acts : Acts σ) (reading : Reading) (app : App σ) (req : Req) (now : Nat) : Standing → Prop where
  | stays : Shifts acts reading app req now app.standing
  | locked (lock : req.path = "/api/lock") : Shifts acts reading app req now ⟨none, app.code, none, none, app.nextId⟩
  | asks (p : Pending) (asks : Asks acts reading app req now p) :
    Shifts acts reading app req now { app.standing with pending := some p, nextId := app.nextId + 1 }
  | hands (ho : Handover) (waits : app.handover = some ho) : Shifts acts reading app req now { app.standing with handover := none }

theorem asked_calm (harmless : Harmless acts R) {world left : σ} {req : Req} {result : Except String (Path × Op)}
    (is : App.asked acts reading world req = (result, left)) : R world left := by
  unfold App.asked at is
  split at is
  · cases is
    exact harmless.refl _
  split at is
  · split at is
    · cases is
      exact harmless.refl _
    split at is
    · next reads =>
      cases is
      exact harmless.then (harmless.refl _) (harmless.tokens _ _) reads
    · next reads =>
      have opened := harmless.then (harmless.refl _) (harmless.tokens _ _) reads
      split at is
      all_goals
        cases is
        exact opened
  split at is
  all_goals
    cases is
    exact harmless.refl _

theorem ask_shifts (harmless : Harmless acts R) (req : Req) (now : Nat) (code : String) :
    R app.world (app.ask acts reading req now code).2.world ∧
      Shifts acts reading app req now (app.ask acts reading req now code).2.standing := by
  unfold App.ask
  split
  · exact ⟨harmless.refl _, .stays⟩
  next alone =>
  have none : app.pending = none := by simpa using alone
  split
  · next is => exact ⟨asked_calm harmless is, .stays⟩
  · next env op world is =>
    refine ⟨asked_calm harmless is, ?_⟩
    exact .asks ⟨app.nextId, env, op, now⟩ ⟨none, by rw [is], rfl, rfl⟩

theorem handOver_shifts [Digests] (harmless : Harmless acts R) (req : Req) (now : Nat) :
    R app.world (app.handOver acts reading req now).2.world ∧
      Shifts acts reading app req now (app.handOver acts reading req now).2.standing := by
  unfold App.handOver
  split
  · exact ⟨harmless.refl _, .stays⟩
  split
  · exact ⟨harmless.refl _, .stays⟩
  next ho taken =>
  obtain ⟨waits, -⟩ := Option.filter_eq_some_iff.mp taken
  dsimp only
  split
  · split
    · next copies => exact ⟨Clip.copy_calm harmless copies, .hands ho waits⟩
    · next copies => exact ⟨Clip.copy_calm harmless copies, .stays⟩
  split
  · split
    · exact ⟨harmless.refl _, .stays⟩
    split
    · next saves => exact ⟨harmless.then (harmless.refl _) (harmless.createPrivate _ _ _) saves, .hands ho waits⟩
    · next saves => exact ⟨harmless.then (harmless.refl _) (harmless.createPrivate _ _ _) saves, .stays⟩
  · exact ⟨harmless.refl _, .hands ho waits⟩

theorem Calm.shifts {req : Req} {now : Nat} {after : App σ} (calm : Calm R app after) :
    R app.world after.world ∧ Shifts acts reading app req now after.standing :=
  ⟨calm.world, calm.standing ▸ .stays⟩

theorem post_shifts [Digests] (harmless : Harmless acts R) (req : Req) (draw : App.Draw) :
    R app.world (app.post acts reading req draw).2.world ∧
      Shifts acts reading app req draw.now (app.post acts reading req draw).2.standing := by
  unfold App.post
  split
  · next lock => exact ⟨harmless.refl _, .locked lock⟩
  split
  · exact (reveal_calm harmless req).shifts
  split
  · exact (copy_calm harmless req _).shifts
  split
  · exact (set_calm harmless req).shifts
  split
  · exact (delete_calm harmless req).shifts
  split
  · exact (restore_calm harmless req).shifts
  split
  · exact (addEnv_calm harmless req).shifts
  split
  · exact ask_shifts harmless req _ _
  split
  · exact handOver_shifts harmless req _
  · exact ⟨harmless.refl _, .stays⟩

/-! ## Every input -/

/-- A request that changes something: it comes to this host, from this page, with its mark. -/
structure FromPage (app : App σ) (raw : RawRequest) (req : Req) : Prop where
  read : Req.read raw = .ok req
  post : req.method = "POST"
  host : req.host = some app.host
  origin : req.origin = some app.origin
  marked : req.gvUi = true

/-- It comes with the cookie of the session, which is on. -/
structure OfSession (app : App σ) (req : Req) (cookie : String) : Prop where
  session : app.standing.cookie = some cookie
  carries : (req.cookie cookieName).getD "" = cookie

/-- A token that waits to be taken is of the request that had it minted. -/
structure Minted (ho : Handover) (p : Pending) : Prop where
  confirm : ho.confirm = p.id
  env : ho.env = p.env
  mint : ∃ scope ttl, p.op = .mint scope ttl

/-- What an input may do to the standing, and when. -/
inductive Moves (acts : Acts σ) (reading : Reading) (app : App σ) : App.Input → Standing → Prop where
  | stays (input : App.Input) (timely : ∀ now p, input = .tick now → app.pending = some p →
        elapsed now.pending p.asked ≤ app.t.confirmLapse)
      (waits : ∀ text now code, input = .line text now code → app.pending = none) : Moves acts reading app input app.standing
  | linked (text : String) (now : Nat) (code : String) (alone : app.pending = none) :
      Moves acts reading app (.line text now code)
        ⟨none, some (code, now), none, if app.browser.isSome then none else app.handover, app.nextId⟩
  | declined (text : String) (now : Nat) (code : String) :
      Moves acts reading app (.line text now code) { app.standing with pending := none }
  | confirmed (text : String) (now : Nat) (code : String) (p : Pending) (waits : app.pending = some p) (yes : confirms text = true)
      (handover : Option Handover) (own : handover = app.handover ∨ ∃ ho, handover = some ho ∧ Minted ho p) :
      Moves acts reading app (.line text now code) { app.standing with pending := none, handover }
  | lapsed (now : App.Moments) (after : Standing)
      (session : after.cookie = app.standing.cookie ∧ after.handover = app.handover ∨ after.cookie = none ∧ after.handover = none ∧
        after.pending = none)
      (code : after.code = app.code ∨ after.code = none)
      (pending : ∀ p, after.pending = some p → app.pending = some p ∧ elapsed now.pending p.asked ≤ app.t.confirmLapse)
      (nextId : after.nextId = app.nextId) : Moves acts reading app (.tick now) after
  | started (raw : RawRequest) (draw : App.Draw) (req : Req) (fromPage : FromPage app raw req) (code : String × Nat)
      (opened : app.code = some code) (given : json reading.code req = .ok code.1) :
      Moves acts reading app (.request raw draw)
        ⟨some draw.cookie, none, if app.browser.isSome then none else app.pending,
          if app.browser.isSome then none else app.handover, app.nextId⟩
  | served (raw : RawRequest) (draw : App.Draw) (req : Req) (cookie : String) (fromPage : FromPage app raw req)
      (ofSession : OfSession app req cookie) (after : Standing) (shifts : Shifts acts reading app req draw.now after) :
      Moves acts reading app (.request raw draw) after

/-- That a confirmed request is done: the only step that may change what others may not. -/
def Performs (app : App σ) (input : App.Input) (p : Pending) : Prop :=
  ∃ text now code, input = .line text now code ∧ confirms text = true ∧ app.pending = some p

theorem runOp_standing (acts : Acts σ) (app : App σ) (p : Pending) : ∃ handover,
    (app.runOp acts p).2.standing = { app.standing with handover } ∧
      (handover = app.handover ∨ ∃ ho, handover = some ho ∧ Minted ho p) := by
  unfold App.runOp
  split
  · next scope ttl mint =>
    split
    · exact ⟨_, rfl, .inl rfl⟩
    · exact ⟨_, rfl, .inr ⟨_, rfl, rfl, rfl, scope, ttl, mint⟩⟩
  all_goals
    split
    all_goals exact ⟨_, rfl, .inl rfl⟩

theorem perform_standing (acts : Acts σ) (app : App σ) (p : Pending) : ∃ handover,
    (app.perform acts p).standing = { app.standing with handover } ∧
      (handover = app.handover ∨ ∃ ho, handover = some ho ∧ Minted ho p) := by
  obtain ⟨handover, is, own⟩ := runOp_standing acts app p
  refine ⟨handover, ?_, own⟩
  unfold App.perform
  split
  all_goals
    next runs =>
    rw [runs] at is
    exact is

theorem onLine_moves (harmless : Harmless acts R) (text : String) (now : Nat) (code : String) :
    (R app.world (app.onLine acts text now code).world ∨ ∃ p, Performs app (.line text now code) p) ∧
      Moves acts reading app (.line text now code) (app.onLine acts text now code).standing := by
  unfold App.onLine
  split
  · next p waits =>
    dsimp only
    split
    · next yes =>
      obtain ⟨handover, is, own⟩ := perform_standing acts { app with pending := none } p
      refine ⟨.inr ⟨p, text, now, code, rfl, yes, waits⟩, ?_⟩
      rw [is]
      exact .confirmed text now code p waits yes handover own
    · exact ⟨.inl (harmless.refl _), .declined text now code⟩
  · next alone =>
    split
    · refine ⟨.inl ?_, ?_⟩
      · unfold App.newLink
        split <;> exact harmless.refl _
      · have links : (app.newLink now code).standing =
            ⟨none, some (code, now), none, if app.browser.isSome then none else app.handover, app.nextId⟩ := by
          unfold App.newLink
          cases browser : app.browser <;> simp [App.standing, App.forget, browser, alone]
        rw [links]
        exact .linked text now code alone
    · exact ⟨.inl (harmless.refl _), .stays _ (fun _ _ impossible => by cases impossible) fun _ _ _ _ => alone⟩

theorem lapseCode_standing (app : App σ) (now : Nat) : ∃ code, (code = app.code ∨ code = none) ∧
    (app.lapseCode now).standing = { app.standing with code } ∧ (app.lapseCode now).t = app.t ∧
      (app.lapseCode now).world = app.world := by
  unfold App.lapseCode
  split
  · exact ⟨none, .inr rfl, rfl, rfl, rfl⟩
  · exact ⟨app.code, .inl rfl, rfl, rfl, rfl⟩

theorem lapseBrowser_standing (app : App σ) (now : Nat) :
    ((app.lapseBrowser now).standing = app.standing ∨ (app.lapseBrowser now).standing = ⟨none, app.code, none, none, app.nextId⟩) ∧
      (app.lapseBrowser now).t = app.t ∧ (app.lapseBrowser now).world = app.world := by
  unfold App.lapseBrowser
  split
  · exact ⟨.inr rfl, rfl, rfl⟩
  · exact ⟨.inl rfl, rfl, rfl⟩

theorem lapsePending_standing (app : App σ) (now : Nat) : ∃ pending,
    (∀ p, pending = some p → app.pending = some p ∧ elapsed now p.asked ≤ app.t.confirmLapse) ∧
      (app.lapsePending now).standing = { app.standing with pending } ∧ (app.lapsePending now).world = app.world := by
  unfold App.lapsePending
  split
  · next p waits =>
    split
    · exact ⟨none, fun _ impossible => (by cases impossible), rfl, rfl⟩
    · next timely =>
      refine ⟨app.pending, ?_, rfl, rfl⟩
      intro other same
      obtain rfl := Option.some.inj (waits.symm.trans same)
      exact ⟨same, Nat.le_of_not_lt timely⟩
  · next alone =>
    refine ⟨none, fun _ impossible => (by cases impossible), ?_, rfl⟩
    simp [App.standing, alone]

theorem tick_moves [Digests] (harmless : Harmless acts R) (now : App.Moments) :
    R app.world (app.tick acts now).world ∧ Moves acts reading app (.tick now) (app.tick acts now).standing := by
  obtain ⟨code, codeKept, coded, timings, codeWorld⟩ := lapseCode_standing app now.code
  obtain ⟨session, timings', sessionWorld⟩ := lapseBrowser_standing (app.lapseCode now.code) now.browser
  obtain ⟨pending, timely, waiting, pendingWorld⟩ := lapsePending_standing ((app.lapseCode now.code).lapseBrowser now.browser) now.pending
  rw [timings', timings] at timely
  constructor
  · change R app.world (Clip.clear _ acts.tools _ _)
    rw [pendingWorld, sessionWorld, codeWorld]
    exact Clip.clear_calm harmless _ _ _
  · change Moves acts reading app (.tick now) (((app.lapseCode now.code).lapseBrowser now.browser).lapsePending now.pending).standing
    rw [waiting]
    have pendingIs : ((app.lapseCode now.code).lapseBrowser now.browser).pending =
        ((app.lapseCode now.code).lapseBrowser now.browser).standing.pending := rfl
    rw [pendingIs] at timely
    obtain same | ended := session
    · rw [same, coded] at timely ⊢
      exact .lapsed now _ (.inl ⟨rfl, rfl⟩) codeKept timely rfl
    · have codeIs : (app.lapseCode now.code).code = code := congrArg Standing.code coded
      have nextIs : (app.lapseCode now.code).nextId = app.nextId := congrArg Standing.nextId coded
      rw [ended, codeIs, nextIs] at timely ⊢
      have none : pending = none := by
        cases pending with
        | none => rfl
        | some p => cases (timely p rfl).1
      subst none
      exact .lapsed now _ (.inr ⟨rfl, rfl, rfl⟩) codeKept (fun _ impossible => by cases impossible) rfl

theorem admits_post {app : App σ} {raw : RawRequest} {req : Req} (read : Req.read raw = .ok req) (admits : app.admits req = .ok ())
    (post : req.method = "POST") : FromPage app raw req := by
  unfold App.admits at admits
  split at admits
  · cases admits
  next host =>
  split at admits
  · cases admits
  split at admits
  · cases admits
  next page =>
  obtain ⟨origin, marked⟩ := not_not.mp fun refused => page ⟨post, refused⟩
  exact ⟨read, post, not_not.mp host, origin, marked⟩

theorem admits_method {app : App σ} {req : Req} (admits : app.admits req = .ok ()) (notGet : req.method ≠ "GET") :
    req.method = "POST" := by
  unfold App.admits at admits
  split at admits
  · cases admits
  split at admits
  · cases admits
  next method => exact not_not.mp fun notPost => method ⟨notGet, notPost⟩

theorem Shifts.of_active {browser : Browser} {req : Req} {now active : Nat} {after : Standing} (on : app.browser = some browser)
    (shifts : Shifts acts reading { app with browser := some { browser with lastActive := active } } req now after) :
    Shifts acts reading app req now after := by
  have same : ({ app with browser := some { browser with lastActive := active } } : App σ).standing = app.standing := by
    simp [App.standing, on]
  cases shifts with
  | stays => exact same ▸ .stays
  | locked lock => exact .locked lock
  | asks p asks =>
    rw [same]
    exact .asks p ⟨asks.alone, asks.decided, asks.id, asks.asked⟩
  | hands ho waits =>
    rw [same]
    exact .hands ho waits

theorem serve_moves [Digests] (harmless : Harmless acts R) (raw : RawRequest) (draw : App.Draw) :
    R app.world (app.serve acts reading raw draw).2.world ∧
      Moves acts reading app (.request raw draw) (app.serve acts reading raw draw).2.standing := by
  have stays : Moves acts reading app (.request raw draw) app.standing :=
    .stays _ (fun _ _ impossible => by cases impossible) fun _ _ _ impossible => by cases impossible
  unfold App.serve
  split
  · exact ⟨harmless.refl _, stays⟩
  next req read =>
  unfold App.route
  split
  · exact ⟨harmless.refl _, stays⟩
  next admits =>
  split
  · exact ⟨harmless.refl _, stays⟩
  split
  · exact ⟨harmless.refl _, stays⟩
  split
  · next starting =>
    unfold App.exchange
    split
    · exact ⟨harmless.refl _, stays⟩
    · next given decoded =>
      split
      · next opens =>
        cases code : app.code with
        | none =>
          rw [code] at opens
          cases opens
        | some link =>
          rw [code] at opens
          obtain rfl : link.1 = given := same_iff.mp opens
          refine ⟨?_, ?_⟩
          · dsimp only
            split <;> exact harmless.refl _
          · have starts : Moves acts reading app (.request raw draw) _ :=
              .started raw draw req (admits_post read admits starting.1) link code decoded
            cases browser : app.browser with
            | none => simpa [App.standing, browser] using starts
            | some _ => simpa [App.standing, App.forget, browser] using starts
      · exact ⟨harmless.refl _, stays⟩
  split
  · exact ⟨harmless.refl _, stays⟩
  next browser session =>
  split
  · exact ⟨harmless.refl _, stays⟩
  obtain ⟨on, carries⟩ := Option.filter_eq_some_iff.mp session
  have ofSession : OfSession app req browser.cookie := ⟨by simp [App.standing, on], (same_iff.mp carries).symm⟩
  have standing : ({ app with browser := some { browser with lastActive := draw.active } } : App σ).standing = app.standing := by
    simp [App.standing, on]
  unfold App.act
  by_cases get : req.method = "GET"
  · rw [if_pos get]
    have calm : Calm R ({ app with browser := some { browser with lastActive := draw.active } } : App σ) _ := get_calm harmless req
    have kept := calm.standing.trans standing
    dsimp only
    refine ⟨?_, ?_⟩
    · split <;> exact harmless.trans calm.world (harmless.save _)
    · split
      all_goals
        change Moves acts reading app (.request raw draw) (App.get _ _ _).2.standing
        rw [kept]
        exact stays
  · rw [if_neg get]
    obtain ⟨world, shifts⟩ := @post_shifts σ acts R { app with browser := some { browser with lastActive := draw.active } }
      reading _ harmless req draw
    have served := Moves.served raw draw req browser.cookie (admits_post read admits (admits_method admits get)) ofSession _
      (shifts.of_active on)
    dsimp only
    refine ⟨?_, ?_⟩
    · split <;> exact harmless.trans world (harmless.save _)
    · split <;> exact served

/-- Every input does one of the moves, and changes the world harmlessly unless it confirms what
waited. -/
theorem step_moves [Digests] (harmless : Harmless acts R) (input : App.Input) :
    (R app.world (app.step acts reading input).world ∨ ∃ p, Performs app input p) ∧
      Moves acts reading app input (app.step acts reading input).standing := by
  cases input with
  | line text now code => exact onLine_moves harmless text now code
  | tick now =>
    obtain ⟨world, moves⟩ := tick_moves harmless now
    exact ⟨.inl world, moves⟩
  | request raw draw =>
    obtain ⟨world, moves⟩ := serve_moves harmless raw draw
    exact ⟨.inl world, moves⟩

end

end GalataVault.Ui
