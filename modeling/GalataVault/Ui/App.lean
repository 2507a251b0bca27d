import GalataVault.Formats.LossyText
import GalataVault.Mcp.Env
import GalataVault.Server.Vaults
import GalataVault.Ui.Clip
import GalataVault.Ui.Web

/-!
# The local page's application

One thread owns everything: the owner, the browser session, the pending confirmation, a minted
token that waits to be handed over, and the clipboard. It takes terminal lines, timer ticks and
requests in turn. What mints, revokes, rotates or deletes waits for an answer at the terminal.
-/

namespace GalataVault.Ui

open Proto
open Formats (Path PathError)
open Server (trimBoth isWhitespace parseUnsigned)

/-! ## The state -/

structure Browser where
  cookie : String
  lastActive : Nat
deriving DecidableEq

inductive Op where
  | mint (scope : Scope) (ttl : Nat)
  | revoke (id : TokenId) (rotate : Bool)
  | rotate
  | deleteEnv (recursive : Bool)
deriving DecidableEq

structure Pending where
  id : Nat
  env : Path
  op : Op
  asked : Nat
deriving DecidableEq

inductive Outcome where
  | waiting
  | done (message : String)
  /-- Done, and a minted token is waiting to be handed over. -/
  | handover (message : String)
  | cancelled
  | lapsed
  | failed (message : String)
deriving DecidableEq

/-- A minted token, until it is copied, saved or discarded. -/
structure Handover where
  confirm : Nat
  env : Path
  token : String
  tokenId : String
deriving DecidableEq

/-- How long things last, in nanoseconds. -/
structure Timings where
  codeLapse : Nat
  idle : Nat
  confirmLapse : Nat
  reveal : Nat

structure App (σ : Type) where
  origin : String
  host : String
  /-- The owner, the files and the clipboard. -/
  world : σ
  browser : Option Browser
  code : Option (String × Nat)
  pending : Option Pending
  outcomes : Nat → Option Outcome
  nextId : Nat
  handover : Option Handover
  clip : Clip
  t : Timings

/-! ## What requests carry -/

structure Named where
  env : String
  name : String
  version : Option Nat

structure SetBody where
  env : String
  name : String
  value : String
  /-- The version this write replaces; absent to create. -/
  expected : Option Nat

structure DeleteBody where
  env : String
  name : String
  expected : Nat

structure RestoreBody where
  env : String
  name : String
  version : Nat
  expected : Option Nat

structure PathBody where
  path : String
  recursive : Bool

structure MintBody where
  env : String
  scope : String
  ttl : Option String

structure RevokeBody where
  env : String
  id : String

structure HandBody where
  confirm : Nat
  path : Option String

/-- How bodies are read from JSON. -/
structure Reading where
  named : List UInt8 → Except String Named
  set : List UInt8 → Except String SetBody
  delete : List UInt8 → Except String DeleteBody
  restore : List UInt8 → Except String RestoreBody
  path : List UInt8 → Except String PathBody
  mint : List UInt8 → Except String MintBody
  revoke : List UInt8 → Except String RevokeBody
  env : List UInt8 → Except String String
  hand : List UInt8 → Except String HandBody
  code : List UInt8 → Except String String

/-- `Req::json`. -/
def json {α : Type} (read : List UInt8 → Except String α) (req : Req) : Except String α :=
  (read req.body).mapError fun e => "the request is not what gv ui expects: " ++ e

/-! ## What the application acts through -/

/-- Why a write or a deletion failed. -/
inductive WriteError where
  | conflict (name : String) (expected : Option Nat) (current : Option Nat)
  | other (text : String)

/-- A token that was just minted. -/
structure MintedToken where
  id : String
  expiresAt : String
  token : String

inductive Tab where
  | secrets
  | tokens
  | audit
  | compare
deriving DecidableEq

/-- The owner's calls, each with opening the environment and remembering what it showed, and what
else the application does outside itself. -/
structure Acts (σ : Type) where
  tools : Tools σ
  save : σ → σ
  /-- An error as it is shown. -/
  renderError : String → String
  projectsPage : σ → Except String String × σ
  envPage : σ → Path → Tab → Req → Except String String × σ
  secret : σ → Path → String → Option Nat → Except String (List UInt8 × Nat) × σ
  setSecretExpecting : σ → Path → String → List UInt8 → Option Nat → Except WriteError Nat × σ
  deleteSecret : σ → Path → String → Nat → Except WriteError Nat × σ
  envAdd : σ → Path → Except String Unit × σ
  /-- Each token's id, and its scope if this client knows it. -/
  tokens : σ → Path → Except String (List (TokenId × Option Scope)) × σ
  requireKnown : σ → Path → Except String Unit
  descendants : σ → Path → Except String (List Path)
  /-- Create a private file, and how its path is shown. -/
  createPrivate : σ → String → List UInt8 → Except String String × σ
  mint : σ → Path → Scope → Nat → Except String MintedToken × σ
  revoke : σ → Path → TokenId → Bool → Except String (Option Nat) × σ
  rotate : σ → Path → Except String Nat × σ
  envRemove : σ → Path → Bool → Except String (List Path) × σ

/-! ## Responses -/

inductive Page where
  | boot
  | noSession
  | notFound
  | problem (message : String)
  | shown (text : String)
deriving DecidableEq

inductive Json where
  | text (s : String)
  | number (n : Nat)
  | flag (b : Bool)
deriving DecidableEq

inductive Body where
  | empty
  | html (page : Page)
  | asset (name : String)
  | json (fields : List (String × Json))
deriving DecidableEq

structure Resp where
  status : Nat
  body : Body
  extra : List (String × String)
deriving DecidableEq

namespace Resp

def html (status : Nat) (page : Page) : Resp := ⟨status, .html page, []⟩

def json (status : Nat) (fields : List (String × Json)) : Resp := ⟨status, .json fields, []⟩

def error (status : Nat) (code message : String) : Resp := json status [("error", .text code), ("message", .text message)]

def empty (status : Nat) : Resp := ⟨status, .empty, []⟩

def redirect (location : String) : Resp := ⟨303, .empty, [("Location", location)]⟩

def cookie (r : Resp) (name value : String) : Resp :=
  { r with extra := r.extra ++ [("Set-Cookie", name ++ "=" ++ value ++ "; HttpOnly; SameSite=Strict; Path=/")] }

def clearCookie (r : Resp) (name : String) : Resp :=
  { r with extra := r.extra ++ [("Set-Cookie", name ++ "=; HttpOnly; SameSite=Strict; Path=/; Max-Age=0")] }

end Resp

/-- The assets compiled into the program. -/
def assetNames : List String :=
  ["app.css", "app.js", "plex-sans.woff2", "plex-mono-400.woff2", "plex-mono-500.woff2", "plex-mono-600.woff2",
    "newsreader-500.woff2", "OFL.txt"]

def asset (name : String) : Resp := if assetNames.contains name then ⟨200, .asset name, []⟩ else .empty 404

def cookieName : String := "gvui"

/-! ## Texts that are read -/

def pathErrorText : PathError → String
  | .empty => "a path needs at least one segment"
  | .tooDeep depth => "a path is at most 4 segments deep; this one is " ++ toString depth
  | .emptySegment => "a path segment cannot be empty (check for a doubled or trailing '/')"
  | .segmentTooLong segment => "segment " ++ segment.quote ++ " is longer than 63 characters"
  | .badSegment segment reason => "segment " ++ segment.quote ++ ": " ++ reason

def parseEnv (s : String) : Except String Path :=
  (Path.parse s).mapError fun e => s.quote ++ " is not an environment path: " ++ pathErrorText e

/-- `30d`, `12h`, `45m`, `90s`, or plain seconds. -/
def parseTtl (s : String) : Except String Nat :=
  let s := trimBoth isWhitespace s.toList
  let (digits, unit) := match s.getLast? with
    | some c => if c.isAlpha then (s.dropLast, c) else (s, 's')
    | none => (s, 's')
  let refused := (String.ofList s).quote ++ " is not a duration like 30d, 12h, 45m or 90s"
  match parseUnsigned (2 ^ 64) digits with
  | none => .error refused
  | some n =>
    let unit? := if unit = 'd' then some 86400 else if unit = 'h' then some 3600 else if unit = 'm' then some 60
      else if unit = 's' then some 1 else none
    match unit? with
    | none => .error refused
    | some unit => if n * unit < 2 ^ 64 then .ok (n * unit) else .error "that duration is too long"

def parseScope (s : String) : Option Scope :=
  [Scope.metadata, .append, .read, .admin, .config, .configWrite].find? fun scope => Server.Scope.text scope = s

def refuseReserved (name : String) : Except String Unit :=
  if Mcp.isReservedName name then .error "names beginning with \"gv:\" are reserved for gv's own records"
  else if name = "" then .error "a secret name cannot be empty"
  else .ok ()

def conflictText (name : String) (expected current : Option Nat) : String :=
  name ++ " changed on the server: expected " ++ (expected.elim "no existing record" fun v => "version " ++ toString v) ++
    ", the server has version " ++ (current.elim "none" toString)

def short (id : String) : String := String.ofList (id.toList.take 8)

def elapsed (now since : Nat) : Nat := now - since

def asSecs (duration : Nat) : Nat := duration / 1000000000

/-- What a line has to be for a request to be done. -/
def confirms (line : String) : Bool := (trimBoth isWhitespace line.toList).map Char.toLower = ['y']

/-! ## The terminal and the timers -/

variable {σ : Type}

namespace App

/-- The browser session ended: cancel what it was waiting for and drop what it had not taken. -/
def forget (app : App σ) : App σ := { app with pending := none, handover := none, outcomes := fun _ => none }

/-- Print a new link, with a code that was drawn. -/
def newLink (app : App σ) (now : Nat) (code : String) : App σ :=
  let app := if app.browser.isSome then ({ app with browser := none } : App σ).forget else app
  { app with code := some (code, now) }

def noteOutcome (app : App σ) (id : Nat) (outcome : Outcome) : App σ :=
  { app with outcomes := Function.update app.outcomes id (some outcome) }

def runOp (acts : Acts σ) (app : App σ) (p : Pending) : Except String Outcome × App σ :=
  match p.op with
  | .mint scope ttl =>
    match acts.mint app.world p.env scope ttl with
    | (.error e, world) => (.error e, { app with world })
    | (.ok token, world) =>
      (.ok (.handover ("minted " ++ Server.Scope.text scope ++ " token " ++ short token.id ++ " for " ++ p.env.text ++
        ", expiring " ++ token.expiresAt ++ "; take it from the page")),
        { app with world, handover := some ⟨p.id, p.env, token.token, token.id⟩ })
  | .revoke id rotate =>
    match acts.revoke app.world p.env id rotate with
    | (.error e, world) => (.error e, { app with world })
    | (.ok (some generation), world) =>
      (.ok (.done ("revoked token " ++ short (toHex id.raw.bytes) ++ " and rotated " ++ p.env.text ++ " to generation " ++
        toString generation ++ "; change any value you think its holder read")), { app with world })
    | (.ok none, world) =>
      (.ok (.done ("revoked token " ++ short (toHex id.raw.bytes) ++ " in " ++ p.env.text)), { app with world })
  | .rotate =>
    match acts.rotate app.world p.env with
    | (.error e, world) => (.error e, { app with world })
    | (.ok generation, world) =>
      (.ok (.done ("rotated " ++ p.env.text ++ " to generation " ++ toString generation)), { app with world })
  | .deleteEnv recursive =>
    match acts.envRemove app.world p.env recursive with
    | (.error e, world) => (.error e, { app with world })
    | (.ok deleted, world) => (.ok (.done ("deleted " ++ ", ".intercalate (deleted.map Path.text))), { app with world })

def perform (acts : Acts σ) (app : App σ) (p : Pending) : App σ :=
  match app.runOp acts p with
  | (.ok outcome, app) => app.noteOutcome p.id outcome
  | (.error e, app) => app.noteOutcome p.id (.failed (acts.renderError e))

/-- A line that was typed; `code` is drawn for the link that is printed. -/
def onLine (acts : Acts σ) (app : App σ) (line : String) (now : Nat) (code : String) : App σ :=
  match app.pending with
  | some p =>
    let app := { app with pending := none }
    if confirms line then app.perform acts p else app.noteOutcome p.id .cancelled
  | none => if trimBoth isWhitespace line.toList = [] then app.newLink now code else app

/-- What the clock showed when each of a tick's timers was looked at. -/
structure Moments where
  code : Nat
  browser : Nat
  pending : Nat
  clip : Nat

def lapseCode (app : App σ) (now : Nat) : App σ :=
  if app.code.any fun code => app.t.codeLapse < elapsed now code.2 then { app with code := none } else app

def lapseBrowser (app : App σ) (now : Nat) : App σ :=
  if app.browser.any fun browser => app.t.idle < elapsed now browser.lastActive then
    ({ app with browser := none } : App σ).forget
  else app

def lapsePending (app : App σ) (now : Nat) : App σ :=
  match app.pending with
  | some p =>
    if app.t.confirmLapse < elapsed now p.asked then ({ app with pending := none } : App σ).noteOutcome p.id .lapsed else app
  | none => app

variable [Digests]

def tick (acts : Acts σ) (app : App σ) (now : Moments) : App σ :=
  let app := ((app.lapseCode now.code).lapseBrowser now.browser).lapsePending now.pending
  let (clip, world) := app.clip.tick acts.tools app.world now.clip
  { app with clip, world }

/-! ## Secrets -/

def reveal (acts : Acts σ) (reading : Reading) (app : App σ) (req : Req) : Except String Resp × App σ :=
  match (do
    let b ← json reading.named req
    let env ← parseEnv b.env
    pure (b, env)) with
  | .error e => (.error e, app)
  | .ok (b, env) =>
    match acts.secret app.world env b.name b.version with
    | (.error e, world) => (.error e, { app with world })
    | (.ok (value, version), world) =>
      (.ok (.json 200 [("value", .text (String.ofList (Formats.fromUtf8Lossy value))), ("version", .number version),
        ("hide_after", .number (asSecs app.t.reveal))]), { app with world })

def copied (app : App σ) : Resp := .json 200 [("copied", .flag true), ("clears_in", .number (asSecs app.clip.clearAfter))]

def copy (acts : Acts σ) (reading : Reading) (app : App σ) (req : Req) (now : Nat) : Except String Resp × App σ :=
  match (do
    let b ← json reading.named req
    let env ← parseEnv b.env
    if app.clip.available then pure (b, env)
    else .error noTools) with
  | .error e => (.error e, app)
  | .ok (b, env) =>
    match acts.secret app.world env b.name b.version with
    | (.error e, world) => (.error e, { app with world })
    | (.ok (value, _), world) =>
      match app.clip.copy acts.tools world now value with
      | (.error e, clip, world) => (.error e, { app with clip, world })
      | (.ok (), clip, world) => (.ok app.copied, { app with clip, world })

/-- What a write or a deletion answers. -/
def written (env : Path) (left : String) : Except WriteError Nat → Except String Resp
  | .ok version => .ok (.json 200 [("version", .number version)])
  | .error (.conflict name expected current) =>
    .ok (.error 409 "conflict" (env.text ++ ": " ++ conflictText name expected current ++ "; nothing was " ++ left))
  | .error (.other text) => .error text

def write (acts : Acts σ) (app : App σ) (env name : String) (value : List UInt8) (expected : Option Nat) :
    Except String Resp × App σ :=
  match (do
    refuseReserved name
    if value = [] then .error ("the value for " ++ name ++ " is empty") else parseEnv env) with
  | .error e => (.error e, app)
  | .ok env =>
    let (result, world) := acts.setSecretExpecting app.world env name value expected
    (written env "overwritten" result, { app with world })

def set (acts : Acts σ) (reading : Reading) (app : App σ) (req : Req) : Except String Resp × App σ :=
  match json reading.set req with
  | .error e => (.error e, app)
  | .ok b => app.write acts b.env b.name (utf8 b.value) b.expected

def delete (acts : Acts σ) (reading : Reading) (app : App σ) (req : Req) : Except String Resp × App σ :=
  match (do
    let b ← json reading.delete req
    refuseReserved b.name
    let env ← parseEnv b.env
    pure (b, env)) with
  | .error e => (.error e, app)
  | .ok (b, env) =>
    let (result, world) := acts.deleteSecret app.world env b.name b.expected
    (written env "deleted" result, { app with world })

def restore (acts : Acts σ) (reading : Reading) (app : App σ) (req : Req) : Except String Resp × App σ :=
  match (do
    let b ← json reading.restore req
    let env ← parseEnv b.env
    pure (b, env)) with
  | .error e => (.error e, app)
  | .ok (b, env) =>
    match acts.secret app.world env b.name (some b.version) with
    | (.error e, world) => (.error e, { app with world })
    | (.ok (value, _), world) => ({ app with world } : App σ).write acts b.env b.name value b.expected

def addEnv (acts : Acts σ) (reading : Reading) (app : App σ) (req : Req) : Except String Resp × App σ :=
  match (do
    let b ← json reading.path req
    parseEnv b.path) with
  | .error e => (.error e, app)
  | .ok path =>
    match acts.envAdd app.world path with
    | (.error e, world) => (.error e, { app with world })
    | (.ok (), world) => (.ok (.json 200 [("created", .text path.text)]), { app with world })

/-! ## Confirmations -/

/-- What a request asks to be confirmed. -/
def asked (acts : Acts σ) (reading : Reading) (world : σ) (req : Req) : Except String (Path × Op) × σ :=
  if req.path = "/api/mint" then
    (do
      let b ← json reading.mint req
      let env ← parseEnv b.env
      let scope ← match parseScope b.scope with
        | some scope => .ok scope
        | none => .error "a scope is meta, append, read, admin, config or config-write"
      let ttl ← match b.ttl with
        | some ttl => parseTtl ttl
        | none => .ok 0
      pure (env, .mint scope ttl), world)
  else if req.path = "/api/revoke" then
    match (do
      let b ← json reading.revoke req
      let env ← parseEnv b.env
      match fromHex 16 b.id with
      | some id => .ok (b, env, (⟨id⟩ : TokenId))
      | none => .error "a token id is 32 hexadecimal characters") with
    | .error e => (.error e, world)
    | .ok (b, env, id) =>
      match acts.tokens world env with
      | (.error e, world) => (.error e, world)
      | (.ok tokens, world) =>
        match tokens.find? fun token => token.1 = id with
        | none => (.error (env.text ++ " has no token " ++ short b.id), world)
        -- a token that holds any key beyond the name key is revoked with a rotation
        | some (_, scope) => (.ok (env, .revoke id (scope ≠ some .metadata)), world)
  else if req.path = "/api/rotate" then
    (do
      let env ← json reading.env req
      let env ← parseEnv env
      pure (env, .rotate), world)
  else
    (do
      let b ← json reading.path req
      let env ← parseEnv b.path
      acts.requireKnown world env
      let below ← acts.descendants world env
      if below ≠ [] ∧ b.recursive = false then
        .error (env.text ++ " has environments below it (" ++ ", ".intercalate (below.map Path.text) ++ "); delete those first")
      else .ok (env, .deleteEnv b.recursive), world)

/-- Ask for an answer at the terminal; `code` is drawn for people to compare. -/
def ask (acts : Acts σ) (reading : Reading) (app : App σ) (req : Req) (now : Nat) (code : String) : Except String Resp × App σ :=
  if app.pending.isSome then
    (.ok (.error 409 "confirmation_pending" "another request is waiting for the terminal"), app)
  else
    match asked acts reading app.world req with
    | (.error e, world) => (.error e, { app with world })
    | (.ok (env, op), world) =>
      (.ok (.json 202 [("confirm", .number app.nextId), ("code", .text code)]),
        ({ app with world, nextId := app.nextId + 1, pending := some ⟨app.nextId, env, op, now⟩ } : App σ).noteOutcome
          app.nextId .waiting)

def confirmStatus (app : App σ) (id : List Char) : Resp :=
  match (parseUnsigned (2 ^ 64) id).bind app.outcomes with
  | none => .error 404 "unknown" "no such request in this session"
  | some outcome =>
    let (state, message) := match outcome with
      | .waiting => ("waiting", "waiting for the terminal")
      | .done m => ("done", m)
      | .handover m => ("handover", m)
      | .cancelled => ("cancelled", "not confirmed in the terminal; nothing was changed")
      | .lapsed => ("lapsed", "nobody answered in the terminal; nothing was changed")
      | .failed m => ("failed", m)
    .json 200 [("state", .text state), ("message", .text message)]

/-- Copy, save or discard a minted token. -/
def handOver (acts : Acts σ) (reading : Reading) (app : App σ) (req : Req) (now : Nat) : Except String Resp × App σ :=
  match json reading.hand req with
  | .error e => (.error e, app)
  | .ok b =>
    match app.handover.filter fun ho => ho.confirm = b.confirm with
    | none => (.error "this token was already handed over, or its session ended; mint another", app)
    | some ho =>
      let taken := { app with handover := none }
      if req.path = "/api/handover/copy" then
        match app.clip.copy acts.tools app.world now (utf8 ho.token) with
        | (.ok (), clip, world) => (.ok app.copied, { taken with clip, world })
        | (.error e, clip, world) => (.error e, { app with clip, world })
      else if req.path = "/api/handover/save" then
        match (b.path.map Formats.trim).filter (· ≠ "") with
        | none => (.error "give the file to save the token to", app)
        | some path =>
          match acts.createPrivate app.world path (utf8 (ho.token ++ "\n")) with
          | (.ok shown, world) => (.ok (.json 200 [("saved", .text shown)]), { taken with world })
          | (.error e, world) => (.error e, { app with world })
      else (.ok (.json 200 [("ok", .flag true)]), taken)

/-! ## Requests -/

def lock (app : App σ) : Except String Resp × App σ :=
  (.ok ((Resp.json 200 [("ok", .flag true)]).clearCookie cookieName), ({ app with browser := none } : App σ).forget)

/-- When a request is acted on, and what is drawn for it: a cookie, or a code to compare. -/
structure Draw where
  active : Nat
  now : Nat
  cookie : String
  code : String

def post (acts : Acts σ) (reading : Reading) (app : App σ) (req : Req) (draw : Draw) : Except String Resp × App σ :=
  if req.path = "/api/lock" then app.lock
  else if req.path = "/api/reveal" then app.reveal acts reading req
  else if req.path = "/api/copy" then app.copy acts reading req draw.now
  else if req.path = "/api/set" then app.set acts reading req
  else if req.path = "/api/delete" then app.delete acts reading req
  else if req.path = "/api/restore" then app.restore acts reading req
  else if req.path = "/api/env/add" then app.addEnv acts reading req
  else if ["/api/mint", "/api/revoke", "/api/rotate", "/api/env/delete"].contains req.path then
    app.ask acts reading req draw.now draw.code
  else if ["/api/handover/copy", "/api/handover/save", "/api/handover/discard"].contains req.path then
    app.handOver acts reading req draw.now
  else (.ok (.error 404 "not_found" "no such action"), app)

def rsplitOnce (separator : Char) (s : List Char) : Option (List Char × List Char) :=
  (splitOnce separator s.reverse).map fun parts => (parts.2.reverse, parts.1.reverse)

def tabOf (name : List Char) : Option Tab :=
  if name = "secrets".toList then some .secrets
  else if name = "tokens".toList then some .tokens
  else if name = "audit".toList then some .audit
  else if name = "compare".toList then some .compare
  else none

def get (acts : Acts σ) (app : App σ) (req : Req) : Except String Resp × App σ :=
  match Formats.stripPrefix "/api/confirm/".toList req.path.toList with
  | some id => (.ok (app.confirmStatus id), app)
  | none =>
    if req.path = "/projects" then
      let (page, world) := acts.projectsPage app.world
      (page.map fun text => .html 200 (.shown text), { app with world })
    else
      match Formats.stripPrefix "/e/".toList req.path.toList with
      | none => (.ok (.html 404 .notFound), app)
      | some rest =>
        match rsplitOnce '/' rest with
        | none => (.ok (.redirect ("/e/" ++ String.ofList rest ++ "/secrets")), app)
        | some (env, tab) =>
          match parseEnv (String.ofList env), tabOf tab with
          | .error e, _ => (.error e, app)
          | .ok _, none => (.ok (.html 404 .notFound), app)
          | .ok env, some tab =>
            let (page, world) := acts.envPage app.world env tab req
            (page.map fun text => .html 200 (.shown text), { app with world })

/-- Exchange a link's code for a session; `cookie` is drawn for it. -/
def exchange (reading : Reading) (app : App σ) (req : Req) (now : Nat) (cookie : String) : Resp × App σ :=
  match json reading.code req with
  | .error _ => (.error 400 "bad_request" "no code", app)
  | .ok given =>
    if app.code.any fun code => same code.1 given then
      let app := if app.browser.isSome then app.forget else app
      ((Resp.json 200 [("ok", .flag true)]).cookie cookieName cookie,
        { app with code := none, browser := some ⟨cookie, now⟩ })
    -- a wrong guess does not burn the link
    else (.error 410 "link_used" "this link has been used or has lapsed", app)

/-- The session a request is of. -/
def session (app : App σ) (req : Req) : Option Browser :=
  app.browser.filter fun browser => same browser.cookie ((req.cookie cookieName).getD "")

def isApi (req : Req) : Bool := "/api/".toList.isPrefixOf req.path.toList

/-- What a request of a session is answered. -/
def act (acts : Acts σ) (reading : Reading) (app : App σ) (req : Req) (draw : Draw) : Resp × App σ :=
  let (result, app) := if req.method = "GET" then app.get acts req else app.post acts reading req draw
  let app := { app with world := acts.save app.world }
  match result with
  | .ok resp => (resp, app)
  | .error e =>
    let message := acts.renderError e
    (if isApi req then .error 400 "refused" message else .html 400 (.problem message), app)

/-- Where a request goes: it comes to this host, and what changes anything comes from this page. -/
def admits (app : App σ) (req : Req) : Except Resp Unit :=
  if req.host ≠ some app.host then .error (.empty 421)
  else if req.method ≠ "GET" ∧ req.method ≠ "POST" then .error (.empty 405)
  else if req.method = "POST" ∧ ¬(req.origin = some app.origin ∧ req.gvUi = true) then
    .error (.error 403 "forbidden" "a change needs this page's origin and its X-GV-UI header")
  else .ok ()

def route (acts : Acts σ) (reading : Reading) (app : App σ) (req : Req) (draw : Draw) : Resp × App σ :=
  match app.admits req with
  | .error refusal => (refusal, app)
  | .ok () =>
    if req.method = "GET" ∧ req.path = "/" then (.html 200 .boot, app)
    else if req.method = "GET" ∧ (Formats.stripPrefix "/assets/".toList req.path.toList).isSome then
      (asset (String.ofList (req.path.toList.drop "/assets/".length)), app)
    else if req.method = "POST" ∧ req.path = "/session" then app.exchange reading req draw.now draw.cookie
    else
      match app.session req with
      | none =>
        (if isApi req then .error 401 "locked" "no session: open the link gv ui printed" else .html 401 .noSession, app)
      | some browser =>
        if req.path = "/api/ping" then (.json 200 [("ok", .flag true)], app)
        else ({ app with browser := some { browser with lastActive := draw.active } } : App σ).act acts reading req draw

def serve (acts : Acts σ) (reading : Reading) (app : App σ) (raw : RawRequest) (draw : Draw) : Resp × App σ :=
  match Req.read raw with
  | .error status => (.empty status, app)
  | .ok req => app.route acts reading req draw

/-! ## The loop -/

inductive Input where
  /-- A line, when it is handled, and the code of the link it may print. -/
  | line (text : String) (now : Nat) (code : String)
  | tick (now : Moments)
  | request (raw : RawRequest) (draw : Draw)

def step (acts : Acts σ) (reading : Reading) (app : App σ) : Input → App σ
  | .line text now code => app.onLine acts text now code
  | .tick now => app.tick acts now
  | .request raw draw => (app.serve acts reading raw draw).2

/-- The application before its loop. The loop first prints a link, as an empty line does. -/
def new (origin host : String) (world : σ) (clip : Clip) (t : Timings) : App σ where
  origin
  host
  world
  browser := none
  code := none
  pending := none
  outcomes := fun _ => none
  nextId := 1
  handover := none
  clip
  t

/-- What the loop does last. -/
def stop (acts : Acts σ) (app : App σ) : App σ :=
  let app := if app.browser.isSome then ({ app with browser := none } : App σ).forget else app
  let (clip, world) := app.clip.clearAll acts.tools app.world
  { app with clip, world }

end App

end GalataVault.Ui
