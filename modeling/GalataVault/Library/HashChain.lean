import Mathlib.Data.List.Induction

/-!
# Hash-linked logs

A log in which every row carries a sequence number, the hash of the row before
it and its own hash. A log is linked from one position to another when its rows
are numbered without gap from the first, each names the hash of the row before
it, and each is intact, whatever intact means for the rows at hand.

Linked logs compose, and a linked log determines where it ends; both are what a
reader relies on that verified a prefix and continues from its last row.
-/

namespace HashChain

universe u v

/-- What a chain reads off its rows. -/
structure Format (ρ : Type u) (η : Type v) where
  seq : ρ → Nat
  prev : ρ → η
  hash : ρ → η
  intact : ρ → Prop

/-- A position in a chain: the sequence number and hash of its last row. -/
structure Mark (η : Type v) where
  seq : Nat
  hash : η
deriving DecidableEq

variable {ρ : Type u} {η : Type v} {format : Format ρ η}

/-- The rows continue the chain from one mark to another. -/
inductive Linked (format : Format ρ η) : Mark η → List ρ → Mark η → Prop where
  | nil (start : Mark η) : Linked format start [] start
  | cons {start finish : Mark η} {row : ρ} {rest : List ρ}
      (number : format.seq row = start.seq + 1) (link : format.prev row = start.hash)
      (intact : format.intact row)
      (tail : Linked format ⟨format.seq row, format.hash row⟩ rest finish) :
      Linked format start (row :: rest) finish

theorem Linked.append {start middle finish : Mark η} {rows more : List ρ}
    (first : Linked format start rows middle) (second : Linked format middle more finish) :
    Linked format start (rows ++ more) finish := by
  induction first with
  | nil start => exact second
  | cons number link intact _ inductionHypothesis =>
    exact .cons number link intact (inductionHypothesis second)

/-- The end of a linked log is as many rows on as the log is long. -/
theorem Linked.finish_seq {start finish : Mark η} {rows : List ρ}
    (linked : Linked format start rows finish) : finish.seq = start.seq + rows.length := by
  induction linked with
  | nil start => simp
  | cons number _ _ _ inductionHypothesis =>
    rw [inductionHypothesis, List.length_cons]
    simp only [number]
    omega

/-- The rows of a linked log are numbered from its start, without gap or repeat. -/
theorem Linked.seqs {start finish : Mark η} {rows : List ρ}
    (linked : Linked format start rows finish) :
    rows.map format.seq = List.range' (start.seq + 1) rows.length := by
  induction linked with
  | nil start => rfl
  | cons number _ _ _ inductionHypothesis =>
    rw [List.map_cons, inductionHypothesis, List.length_cons, List.range'_succ, number]

/-- A linked log can be cut anywhere. -/
theorem Linked.split {start finish : Mark η} {rows more : List ρ}
    (linked : Linked format start (rows ++ more) finish) :
    ∃ middle, Linked format start rows middle ∧ Linked format middle more finish := by
  induction rows generalizing start with
  | nil => exact ⟨start, .nil start, linked⟩
  | cons row rows inductionHypothesis =>
    cases linked with
    | cons number link intact tail =>
      obtain ⟨middle, first, second⟩ := inductionHypothesis tail
      exact ⟨middle, .cons number link intact first, second⟩

/-- The last row of a linked log says where the log ends and what it follows. -/
theorem Linked.last {start finish : Mark η} {rows : List ρ} {row : ρ}
    (linked : Linked format start (rows ++ [row]) finish) :
    Linked format start rows ⟨finish.seq - 1, format.prev row⟩ ∧ format.intact row ∧
      finish = ⟨format.seq row, format.hash row⟩ := by
  obtain ⟨middle, first, second⟩ := linked.split
  cases second with
  | cons number link intact tail =>
    cases tail with
    | nil =>
      refine ⟨?_, intact, rfl⟩
      rw [number, Nat.add_sub_cancel, link]
      exact first

/-- A log that is not empty determines the position it is linked from. -/
theorem Linked.start_unique {start other finish finish' : Mark η} {rows : List ρ} (some_row : rows ≠ [])
    (linked : Linked format start rows finish) (again : Linked format other rows finish') : start = other := by
  obtain ⟨seq, hash⟩ := start
  obtain ⟨seq', hash'⟩ := other
  cases linked with
  | nil => exact absurd rfl some_row
  | cons number link _ _ =>
    cases again with
    | cons number' link' _ _ =>
      simp only [Mark.mk.injEq]
      constructor
      · simp only [number, Nat.add_right_cancel_iff] at number'
        exact number'
      · exact link.symm.trans link'

/-- When no two intact rows of two logs share a hash without being one row, the end
of a linked log determines the log. The induction is on the rows from the last one:
the ends name one last row, and it names the end before it. -/
theorem Linked.unique {start finish : Mark η} {rows others : List ρ}
    (separates : ∀ left ∈ rows, ∀ right ∈ others, format.intact left → format.intact right →
      format.hash left = format.hash right → left = right)
    (linked : Linked format start rows finish) (again : Linked format start others finish) : rows = others := by
  induction rows using List.reverseRecOn generalizing finish others with
  | nil =>
    have length := linked.finish_seq
    have length' := again.finish_seq
    simp only [List.length_nil] at length
    exact (List.length_eq_zero_iff.mp (by omega)).symm
  | append_singleton rows row inductionHypothesis =>
    cases others using List.reverseRecOn with
    | nil =>
      have length := linked.finish_seq
      have length' := again.finish_seq
      simp only [List.length_append, List.length_cons, List.length_nil] at length length'
      omega
    | append_singleton others other =>
      obtain ⟨before, intact, ends⟩ := linked.last
      obtain ⟨before', intact', ends'⟩ := again.last
      have sameHash : format.hash row = format.hash other := congrArg Mark.hash (ends.symm.trans ends')
      obtain rfl := separates row (by simp) other (by simp) intact intact' sameHash
      rw [inductionHypothesis (fun left member right member' => separates left (by simp [member]) right (by simp [member']))
        before before']

end HashChain
