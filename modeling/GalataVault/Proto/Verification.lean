import GalataVault.Library.HashChain
import GalataVault.Proto.Audit

/-!
# What the audit verifier accepts

The verifier reads a list of rows against a known head. Here its loop is related
to linked logs: it accepts every log that is linked from the known head and whose
last sequence number is a `u64`, and its result is the log's end. The abstract
side knows nothing of the verifier's error cases or of the width of its counter.
-/

namespace GalataVault.Proto

open HashChain

variable [Digests]

/-- An audit row as a row of a hash chain: intact when it hashes to its own hash. -/
def auditFormat : Format AuditRow Hash32 where
  seq := (·.seq)
  prev := (·.prev)
  hash := (·.hash)
  intact := fun row => row.expectedHash = some row.hash

/-- Where a chain of audit rows starts. -/
def start : Mark Hash32 := ⟨0, genesis⟩

/-- A row built from an event continues the chain it was built on. -/
theorem fromEvent_linked (mark : Mark Hash32) (ts : Int) (e : AuditEvent) :
    Linked auditFormat mark [AuditRow.fromEvent (mark.seq + 1) ts mark.hash e]
      ⟨mark.seq + 1, (AuditRow.fromEvent (mark.seq + 1) ts mark.hash e).hash⟩ :=
  .cons rfl rfl (AuditRow.fromEvent_expectedHash _ _ _ _) (.nil _)

/-- The head a mark stands for: none before the first row. -/
def headAt (mark : Mark Hash32) : Option ChainHead :=
  if 0 < mark.seq then some ⟨mark.seq, mark.hash⟩ else none

/-- The loop accepts a linked log that ends within the counter, and reports its
end. Proof: induction on the log; each row meets the three checks by the link,
and the counter has room because a later row exists. -/
theorem verifyLoop_linked {mark finish : Mark Hash32} {rows : List AuditRow}
    (linked : Linked auditFormat mark rows finish) (bounded : finish.seq ≤ u64Max)
    (head : Option ChainHead) :
    verifyLoop (checkedSucc mark.seq) mark.hash head rows =
      .ok (if rows = [] then head else some ⟨finish.seq, finish.hash⟩) := by
  induction linked generalizing head with
  | nil mark => rfl
  | @cons mark finish row rest number link intact tail inductionHypothesis =>
    have ends := tail.finish_seq
    have room : checkedSucc mark.seq = some row.seq := by
      change row.seq = mark.seq + 1 at number
      change finish.seq = row.seq + rest.length at ends
      rw [checkedSucc, if_pos (by omega), number]
    change row.expectedHash = some row.hash at intact
    change row.prev = mark.hash at link
    simp only [verifyLoop, room, link, intact, ne_eq, not_true_eq_false, if_false, reduceCtorEq]
    rw [show verifyLoop (checkedSucc row.seq) row.hash (some row.head) rest = _ from
      inductionHypothesis bounded (some row.head)]
    split
    · next empty =>
      subst empty
      cases tail
      rfl
    · rfl

/-- The verifier accepts a log that is linked from the genesis. -/
theorem verifyChain_linked {finish : Mark Hash32} {rows : List AuditRow}
    (linked : Linked auditFormat start rows finish) (bounded : finish.seq ≤ u64Max) :
    verifyChain none rows = .ok (headAt finish) := by
  have first : seqAfter none = checkedSucc start.seq := by decide
  have ends := linked.finish_seq
  rw [verifyChain, first, show prevAfter none = start.hash from rfl,
    verifyLoop_linked linked bounded]
  cases rows with
  | nil =>
    cases linked
    rfl
  | cons row rest =>
    have positive : 0 < finish.seq := by
      rw [ends, List.length_cons]
      omega
    simp [headAt, positive]

/-- The verifier accepts, from a known head, a log that is linked from it. -/
theorem verifyChain_continues {mark finish : Mark Hash32} {rows : List AuditRow}
    (linked : Linked auditFormat mark rows finish) (bounded : finish.seq ≤ u64Max) :
    verifyChain (some ⟨mark.seq, mark.hash⟩) rows = .ok (some ⟨finish.seq, finish.hash⟩) := by
  change verifyLoop (checkedSucc mark.seq) mark.hash (some ⟨mark.seq, mark.hash⟩) rows = _
  rw [verifyLoop_linked linked bounded]
  split
  · next empty =>
    subst empty
    cases linked
    rfl
  · rfl

/-- A server whose chain continues a known head is neither behind it nor forked from
it. -/
theorem checkServerHead_continues {mark finish : Mark Hash32} {rows : List AuditRow}
    (linked : Linked auditFormat mark rows finish) :
    checkServerHead ⟨mark.seq, mark.hash⟩ (some ⟨finish.seq, finish.hash⟩) = .ok () := by
  have ends := linked.finish_seq
  have same : finish.seq = mark.seq → finish.hash = mark.hash := by
    intro equal
    cases linked with
    | nil => rfl
    | cons => simp only [List.length_cons] at ends; omega
  have notBehind : ¬ finish.seq < mark.seq := by omega
  have notForked : ¬ (finish.seq = mark.seq ∧ finish.hash ≠ mark.hash) := by
    rintro ⟨equal, differs⟩
    exact differs (same equal)
  simp only [checkServerHead, if_neg notBehind, if_neg notForked]

/-- The full algorithm accepts the rows after a known head, when they are linked
from it and the server reports where they end. -/
theorem verifyRows_continues {mark finish : Mark Hash32} {rows : List AuditRow}
    (linked : Linked auditFormat mark rows finish) (bounded : finish.seq ≤ u64Max) :
    verifyRows (some ⟨mark.seq, mark.hash⟩) rows (some ⟨finish.seq, finish.hash⟩) none =
      .ok { head := some ⟨finish.seq, finish.hash⟩, rows := rows.length, unverifiable := none } := by
  simp only [verifyRows, checkServerHead_continues linked, verifyBase, Option.some_or,
    verifyChain_continues linked bounded]
  simp [bind, Except.bind, pure, Except.pure]

end GalataVault.Proto
