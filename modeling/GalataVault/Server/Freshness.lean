import GalataVault.Library.MachineInt
import GalataVault.Server.Vaults

/-!
# Freshness on machine integers

Times are 64-bit integers in the source. The handlers take them as integers; here the
skew check and the nonce's expiry are computed as the build computes them, and compared
with what the handlers do. A timestamp is whatever a header or a report spells.

The subtraction in the skew check is the only step of it that can leave the type, and
only for a timestamp more than half the range before the server's time. A build with
overflow checks stops there, and a build without them goes on with a wrapped difference.
-/

namespace GalataVault.Server

open Proto Interaction MachineInt

/-! ## The checks -/

/-- `(now - ts).abs() > MAX_SKEW_SECS`. -/
def skewed (build : Build) (now ts : Int) : Calc Bool := do
  let difference ← Calc.result build i64 (now - ts)
  let distance ← Calc.result build i64 |difference|
  pure (decide (maxSkewSecs < distance))

/-- When a spent nonce is forgotten: `params.ts + 2 * MAX_SKEW_SECS`. -/
def nonceExpiry (build : Build) (ts : Int) : Calc Int := Calc.result build i64 (ts + 2 * maxSkewSecs)

section

variable [Digests] [Ed25519] (build : Build)

/-- `verify_request` on machine integers. -/
def verifyRequestI64 (pub : Key32) (request : CanonicalRequest) (params : SigParams) (now : Int) :
    Calc (Except CoreError Unit) := do
  if ← skewed build now params.ts then pure (.error .unauthorized)
  else
    pure ((verifyEd25519 pub (params.signingInput request.signed) params.sig "request").mapError fun _ => .unauthorized)

/-- What `report` checks of a report on a token it found. -/
def verifyReport (authPub : Key32) (request : ReportTokenRequest) (now : Int) : Except CoreError Unit :=
  if maxSkewSecs < ((now - request.ts).natAbs : Int) then .error .unauthorized
  else
    (verifyEd25519 authPub (reportSigningInput request.tokenId request.ts) request.sig "report").mapError
      fun _ => .unauthorized

/-- The same on machine integers. -/
def verifyReportI64 (authPub : Key32) (request : ReportTokenRequest) (now : Int) : Calc (Except CoreError Unit) := do
  if ← skewed build now request.ts then pure (.error .unauthorized)
  else
    pure ((verifyEd25519 authPub (reportSigningInput request.tokenId request.ts) request.sig "report").mapError
      fun _ => .unauthorized)

end

/-! ## Where they are exact -/

variable {build : Build} {now ts : Int}

/-- The check is exact if and only if the difference fits: from the epoch on, a difference
that fits has an absolute value that fits. -/
theorem skewed_held (epoch : 0 ≤ now) (clock : i64.Holds now) (stamp : i64.Holds ts) :
    (skewed build now ts).held = true ↔ now - ts < 2 ^ 63 := by
  unfold skewed
  rw [Calc.result_bind_held, Calc.result_bind_held]
  simp only [IntType.Holds, i64, Calc.pure_held, and_true] at *
  constructor
  · exact fun held => held.1.2
  · intro near
    have magnitude : |now - ts| < 2 ^ 63 := abs_lt.mpr ⟨by omega, near⟩
    have positive : 0 ≤ |now - ts| := abs_nonneg _
    exact ⟨⟨by omega, near⟩, by omega, magnitude⟩

/-- Where the difference fits, the check is the comparison it spells. -/
theorem skewed_of_near (epoch : 0 ≤ now) (clock : i64.Holds now) (stamp : i64.Holds ts) (near : now - ts < 2 ^ 63) :
    skewed build now ts = pure (decide (maxSkewSecs < |now - ts|)) := by
  have held : (skewed build now ts).held = true := (skewed_held epoch clock stamp).mpr near
  unfold skewed at held ⊢
  rw [Calc.result_bind_held] at held
  rw [Calc.result_of_holds held.1, Calc.bind_of_pure, Calc.result_of_holds (Calc.result_bind_held.mp held.2).1,
    Calc.bind_of_pure]

theorem nonceExpiry_held (stamp : i64.Holds ts) : (nonceExpiry build ts).held = true ↔ ts + 600 < 2 ^ 63 := by
  unfold nonceExpiry
  rw [Calc.result_held]
  simp only [IntType.Holds, i64, maxSkewSecs] at *
  constructor
  · exact fun held => held.2
  · exact fun fits => ⟨by omega, by omega⟩

/-- Where the difference fits, the check on machine integers is the handler's. -/
theorem verifyRequestI64_exact [Digests] [Ed25519] {pub : Key32} {request : CanonicalRequest} {params : SigParams}
    (epoch : 0 ≤ now) (clock : i64.Holds now) (stamp : i64.Holds params.ts) (near : now - params.ts < 2 ^ 63) :
    verifyRequestI64 build pub request params now = pure (verifyRequest pub request params now) := by
  unfold verifyRequestI64 verifyRequest
  rw [skewed_of_near epoch clock stamp near, Calc.bind_of_pure, ← Int.natCast_natAbs]
  simp only [decide_eq_true_eq]
  split <;> rfl

/-- The handler of reports makes this check of the token it found, and then revokes it. -/
theorem report_eq [Digests] [Ed25519] [Bodies] (body : List UInt8) :
    report body = (do
      let request ← json (Bodies.reportToken body) "token report"
      let found ← Handler.read (Backend.tokenById request.tokenId)
      found.elim (Program.fail .unauthorized) fun row => do
        let now ← Handler.now
        Handler.check (verifyReport row.authPub request now)
        let revoked ← Handler.store
          (.revokeTokens row.vaultPk [request.tokenId] true { actor := .token request.tokenId, now := now })
        pure (.json 200 (.revoked revoked))) := by
  unfold report verifyReport
  congr 1
  funext request
  congr 1
  funext found
  cases found with
  | none => rfl
  | some row =>
    dsimp only [Option.elim]
    congr 1
    funext now
    split <;> rfl

theorem verifyReportI64_exact [Digests] [Ed25519] {authPub : Key32} {request : ReportTokenRequest}
    (epoch : 0 ≤ now) (clock : i64.Holds now) (stamp : i64.Holds request.ts) (near : now - request.ts < 2 ^ 63) :
    verifyReportI64 build authPub request now = pure (verifyReport authPub request now) := by
  unfold verifyReportI64 verifyReport
  rw [skewed_of_near epoch clock stamp near, Calc.bind_of_pure, ← Int.natCast_natAbs]
  simp only [decide_eq_true_eq]
  split <;> rfl

/-! ## Exactness -/

/-- The skew check passes exactly the timestamps within 300 seconds, without overflow. -/
def SkewExact (build : Build) (now ts : Int) : Prop :=
  (skewed build now ts).held = true ∧ ((skewed build now ts).outcome = some false ↔ |now - ts| ≤ 300)

/-- The expiry a passed timestamp's nonce gets is computed without overflow. -/
def ExpiryExact (build : Build) (now ts : Int) : Prop :=
  (skewed build now ts).outcome = some false → (nonceExpiry build ts).held = true

theorem skewExact_iff (epoch : 0 ≤ now) (clock : i64.Holds now) (stamp : i64.Holds ts) :
    SkewExact build now ts ↔ now - ts < 2 ^ 63 := by
  constructor
  · exact fun exact => (skewed_held epoch clock stamp).mp exact.1
  · intro near
    refine ⟨(skewed_held epoch clock stamp).mpr near, ?_⟩
    rw [skewed_of_near epoch clock stamp near]
    rw [Calc.pure_outcome, Option.some.injEq, decide_eq_false_iff_not, not_lt, maxSkewSecs]

/-- A report is checked exactly, and a request and its nonce are, if and only if the
timestamp is less than half the range before the server's time and, where it passes, more
than ten minutes before the end of the range. -/
theorem freshness_exact_iff (build : Build) {now ts : Int} (epoch : 0 ≤ now) (clock : i64.Holds now)
    (stamp : i64.Holds ts) :
    SkewExact build now ts ∧ ExpiryExact build now ts ↔
      now - ts < 2 ^ 63 ∧ (|now - ts| ≤ 300 → ts + 600 < 2 ^ 63) := by
  rw [skewExact_iff epoch clock stamp]
  constructor
  · rintro ⟨near, expiry⟩
    refine ⟨near, fun fresh => ?_⟩
    have held : (nonceExpiry build ts).held = true := expiry (((skewExact_iff epoch clock stamp).mpr near).2.mpr fresh)
    exact (nonceExpiry_held stamp).mp held
  · rintro ⟨near, roomy⟩
    refine ⟨near, fun passed => (nonceExpiry_held stamp).mpr (roomy ?_)⟩
    exact ((skewExact_iff epoch clock stamp).mpr near).2.mp passed

theorem freshness_exact_iff_now :
    SkewExact .wrapping 1757500000 1757499990 ∧ ExpiryExact .wrapping 1757500000 1757499990 ↔
      (1757500000 : Int) - 1757499990 < 2 ^ 63 ∧
        (|(1757500000 : Int) - 1757499990| ≤ 300 → (1757499990 : Int) + 600 < 2 ^ 63) :=
  freshness_exact_iff .wrapping (by decide) (by decide) (by decide)

/-- A timestamp half the range before the server's time stops a checked build, and passes
the skew check of one without overflow checks. -/
theorem skew_check_overflows :
    i64.Holds (1757500000 - 2 ^ 63) ∧
      (skewed .checked 1757500000 (1757500000 - 2 ^ 63)).outcome = none ∧
      (skewed .wrapping 1757500000 (1757500000 - 2 ^ 63)).outcome = some false ∧
      ∀ build, ¬ SkewExact build 1757500000 (1757500000 - 2 ^ 63) := by
  refine ⟨by decide, by decide, by decide, fun build exact => ?_⟩
  exact absurd ((skewExact_iff (by decide) (by decide) (by decide)).mp exact) (by decide)

end GalataVault.Server
