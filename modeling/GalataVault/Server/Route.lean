import GalataVault.Server.Vaults

/-!
# Routing

One table of every endpoint routes every call. The most specific path pattern
that matches wins, then the method. Authentication runs before any path parameter
or query is parsed.
-/

namespace GalataVault.Server

open Proto Backend Interaction

/-- How a request to an endpoint authenticates, as the table documents it. -/
inductive AuthScheme where
  | unauthenticated
  | owner
  | token
  | ownerOrToken
deriving DecidableEq

/-- What an endpoint does. -/
inductive RouteId where
  | capabilities
  | challenges
  | createVault
  | status
  | deleteVault
  | descriptors
  | childrenGet
  | childrenPut
  | rotate
  | registerToken
  | tokenSelf
  | reportToken
  | revokeToken
  | audit
  | recordList (kind : RecordKind)
  | recordGet (kind : RecordKind)
  | recordPut (kind : RecordKind)
  | recordDelete (kind : RecordKind)
  | recordVersions (kind : RecordKind)
  | recordVersion (kind : RecordKind)
  | healthz
  | readyz
deriving DecidableEq

structure Route where
  method : String
  /-- The path, with `\x7bname\x7d` for a segment parameter. -/
  path : String
  auth : AuthScheme
  id : RouteId
deriving DecidableEq

/-- The six endpoints of one kind of record, under its base path. -/
def recordRoutes (base : String) (kind : RecordKind) : List Route :=
  [⟨"GET", base, .ownerOrToken, .recordList kind⟩,
    ⟨"GET", base ++ "/\x7bname_hmac\x7d", .ownerOrToken, .recordGet kind⟩,
    ⟨"PUT", base ++ "/\x7bname_hmac\x7d", .ownerOrToken, .recordPut kind⟩,
    ⟨"DELETE", base ++ "/\x7bname_hmac\x7d", .ownerOrToken, .recordDelete kind⟩,
    ⟨"GET", base ++ "/\x7bname_hmac\x7d/versions", .ownerOrToken, .recordVersions kind⟩,
    ⟨"GET", base ++ "/\x7bname_hmac\x7d/versions/\x7bversion\x7d", .ownerOrToken, .recordVersion kind⟩]

/-- Every endpoint, literal paths before the parameterised ones they could also
match. -/
def routes : List Route :=
  [⟨"GET", "/v1/capabilities", .unauthenticated, .capabilities⟩,
    ⟨"POST", "/v1/challenges", .unauthenticated, .challenges⟩,
    ⟨"POST", "/v1/vaults", .owner, .createVault⟩,
    ⟨"GET", "/v1/vault", .ownerOrToken, .status⟩,
    ⟨"DELETE", "/v1/vault", .owner, .deleteVault⟩,
    ⟨"GET", "/v1/vault/descriptors", .ownerOrToken, .descriptors⟩,
    ⟨"GET", "/v1/vault/children", .owner, .childrenGet⟩,
    ⟨"PUT", "/v1/vault/children", .owner, .childrenPut⟩,
    ⟨"POST", "/v1/vault/rotations", .owner, .rotate⟩,
    ⟨"POST", "/v1/tokens", .owner, .registerToken⟩,
    ⟨"GET", "/v1/tokens/self", .token, .tokenSelf⟩,
    ⟨"POST", "/v1/tokens/report", .unauthenticated, .reportToken⟩,
    ⟨"DELETE", "/v1/tokens/\x7btoken_id\x7d", .ownerOrToken, .revokeToken⟩,
    ⟨"GET", "/v1/audit", .ownerOrToken, .audit⟩] ++
    recordRoutes "/v1/secrets" .secret ++ recordRoutes "/v1/configs" .config ++
    [⟨"GET", "/healthz", .unauthenticated, .healthz⟩, ⟨"GET", "/readyz", .unauthenticated, .readyz⟩]

/-- What a path and method name. -/
inductive Lookup where
  | found (route : Route) (params : List String)
  | methodNotAllowed
  | notFound
deriving DecidableEq

/-- The parameters a pattern's segments bind in a path's, if they match. A parameter
matches one non-empty segment. -/
def bindSegments : List (List Char) → List (List Char) → Option (List String)
  | [], [] => some []
  | want :: wants, got :: gots =>
    if want.head? = some '\x7b' then
      if got = [] then none else (bindSegments wants gots).map fun params => String.ofList got :: params
    else if want = got then bindSegments wants gots
    else none
  | _, _ => none

def bind (pattern path : String) : Option (List String) :=
  bindSegments (pattern.toList.splitOn '/') (path.toList.splitOn '/')

/-- The endpoint `method` and `path` (no query) name. -/
def lookup (method path : String) : Lookup :=
  match routes.findSome? fun r => (bind r.path path).map fun params => (r, params) with
  | none => .notFound
  | some (first, params) =>
    match routes.find? fun r => r.path = first.path ∧ r.method = method with
    | some route => .found route params
    | none => .methodNotAllowed

/-- The bytes percent-encoding stands for: each `%` takes two hexadecimal digits. -/
def percentDecode : List UInt8 → Option (List UInt8)
  | [] => some []
  | b :: rest =>
    if b = 0x25 then
      match rest with
      | high :: low :: rest => do
        let h ← hexValue (Char.ofNat high.toNat)
        let l ← hexValue (Char.ofNat low.toNat)
        let bytes ← percentDecode rest
        pure (UInt8.ofNat (h * 16 + l) :: bytes)
      | _ => none
    else (percentDecode rest).map (b :: ·)

/-- A path parameter, percent-decoded. -/
def param (segment : String) : Except CoreError String :=
  if ¬ segment.toList.contains '%' then .ok segment
  else
    match (percentDecode (utf8 segment)).bind fun bytes => String.fromUTF8? ⟨bytes.toArray⟩ with
    | some text => .ok text
    | none => .error (.invalid "a path segment is not valid percent-encoding")

/-- Run a handler on the endpoint's parameter at `index`. -/
def withParam (params : List String) (index : Nat) (op : String → Handler CoreResponse) : Handler CoreResponse := do
  let text ← Handler.check (param (params.getD index ""))
  op text

variable [Digests] [Ed25519] [Bodies] (policy : Policy)

/-- The handler of an endpoint. -/
def handle (request : CanonicalRequest) (query : Option String) (params : List String) : RouteId → Handler CoreResponse
  | .capabilities => capabilities policy
  | .challenges => challenge policy request
  | .createVault => create policy request
  | .status => authed policy request (status policy)
  | .deleteVault => authed policy request deleteVault
  | .descriptors => authed policy request fun c => descriptors c query
  | .childrenGet => authed policy request children
  | .childrenPut => authed policy request fun c => putChildren policy c request
  | .rotate => authed policy request fun c => rotate c request.body
  | .registerToken => authed policy request fun c => register policy c request.body
  | .tokenSelf => authed policy request whoami
  | .reportToken => report request.body
  | .revokeToken => authed policy request fun c => withParam params 0 (revoke c)
  | .audit => authed policy request fun c => audit c query
  | .recordList kind => authed policy request fun c => list c kind query
  | .recordGet kind => authed policy request fun c => withParam params 0 fun name => read c kind name none
  | .recordPut kind => authed policy request fun c => withParam params 0 fun name => put policy c kind name request
  | .recordDelete kind =>
    authed policy request fun c => withParam params 0 fun name => delete policy c kind name request
  | .recordVersions kind => authed policy request fun c => withParam params 0 (versions c kind)
  | .recordVersion kind =>
    authed policy request fun c => withParam params 0 fun name =>
      withParam params 1 fun version => read c kind name (some version)
  -- The HTTP shell's own endpoints: no transport reaches them here.
  | .healthz | .readyz => Program.fail .noEndpoint

/-- Serve one request. -/
def dispatch (request : CanonicalRequest) : Handler CoreResponse :=
  let (path, query) := match splitOnce '?' request.pathAndQuery.toList with
    | some (path, query) => (String.ofList path, some (String.ofList query))
    | none => (request.pathAndQuery, none)
  match lookup request.method path with
  | .found route params => handle policy request query params route.id
  | .methodNotAllowed => Program.fail (.invalid "method not allowed on this endpoint")
  | .notFound => Program.fail .noEndpoint

end GalataVault.Server
