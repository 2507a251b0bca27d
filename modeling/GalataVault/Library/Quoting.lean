import Mathlib.Data.List.Basic

/-!
# Quoted texts and terminated lines

Between quotes, a symbol that has a letter is spelled by the escape and its letter, and
every other symbol stands as it is. The closing quote and the escape have letters, so the
first closing quote that stands bare is the end of the text. A file of lines ends each of
them with one symbol that no line has.
-/

namespace Quoting

variable {σ : Type} [DecidableEq σ]

/-- What ends a quoted text, what begins an escape, and the letters behind an escape. -/
structure Quotes (σ : Type) where
  close : σ
  escape : σ
  letter : σ → Option σ
  meaning : σ → Option σ
  meaning_iff (c l : σ) : meaning l = some c ↔ letter c = some l
  close_lettered : (letter close).isSome
  escape_lettered : (letter escape).isSome
  apart : escape ≠ close

namespace Quotes

variable (q : Quotes σ)

/-- One symbol as it is spelled between the quotes. -/
def spell (c : σ) : List σ :=
  match q.letter c with
  | some l => [q.escape, l]
  | none => [c]

def write (text : List σ) : List σ := text.flatMap q.spell

omit [DecidableEq σ] in
theorem spell_lettered {c l : σ} (lettered : q.letter c = some l) : q.spell c = [q.escape, l] := by
  rw [spell, lettered]

omit [DecidableEq σ] in
theorem spell_bare {c : σ} (bare : q.letter c = none) : q.spell c = [c] := by
  rw [spell, bare]

omit [DecidableEq σ] in
theorem write_cons (c : σ) (text : List σ) : q.write (c :: text) = q.spell c ++ q.write text := List.flatMap_cons

/-- The text up to the closing quote, and what is behind it. -/
def read : List σ → Option (List σ × List σ)
  | [] => none
  | c :: rest =>
    if c = q.close then some ([], rest)
    else if c = q.escape then
      match rest with
      | [] => none
      | l :: behind => (q.meaning l).bind fun meant => (read behind).map fun found => (meant :: found.1, found.2)
    else if (q.letter c).isSome then none
    else (read rest).map fun found => (c :: found.1, found.2)

theorem read_close (rest : List σ) : q.read (q.close :: rest) = some ([], rest) := by
  rw [read.eq_def]
  exact if_pos rfl

theorem read_escaped {c l : σ} (lettered : q.letter c = some l) (rest : List σ) :
    q.read (q.escape :: l :: rest) = (q.read rest).map fun found => (c :: found.1, found.2) := by
  rw [read.eq_def]
  dsimp only
  rw [if_neg q.apart, if_pos rfl, (q.meaning_iff c l).mpr lettered]
  rfl

theorem read_bare {c : σ} (bare : q.letter c = none) (rest : List σ) :
    q.read (c :: rest) = (q.read rest).map fun found => (c :: found.1, found.2) := by
  have open_ : c ≠ q.close := by
    rintro rfl
    simpa [bare] using q.close_lettered
  have plain : c ≠ q.escape := by
    rintro rfl
    simpa [bare] using q.escape_lettered
  rw [read.eq_def]
  dsimp only
  rw [if_neg open_, if_neg plain, if_neg (by simp [bare])]

/-- What is written is read back, whatever stands behind the closing quote. -/
theorem read_write (text rest : List σ) :
    q.read (q.write text ++ q.close :: rest) = some (text, rest) := by
  induction text with
  | nil => exact q.read_close rest
  | cons c text inductionHypothesis =>
    rw [write_cons]
    cases lettered : q.letter c with
    | none =>
      rw [q.spell_bare lettered, List.append_assoc, List.singleton_append, q.read_bare lettered, inductionHypothesis]
      rfl
    | some l =>
      rw [q.spell_lettered lettered, List.append_assoc, List.cons_append, List.singleton_append,
        q.read_escaped lettered, inductionHypothesis]
      rfl

/-- Nothing else is read. The induction follows the reader. -/
theorem write_of_read {input text rest : List σ} (found : q.read input = some (text, rest)) :
    input = q.write text ++ q.close :: rest := by
  fun_induction q.read input generalizing text with
  | case1 => cases found
  | case2 input =>
    obtain ⟨rfl, rfl⟩ := Prod.mk.inj (Option.some.inj found)
    rfl
  | case3 => cases found
  | case4 l behind open_ inductionHypothesis =>
    obtain ⟨meant, known, later⟩ := Option.bind_eq_some_iff.mp found
    obtain ⟨⟨more, left⟩, read, same⟩ := Option.map_eq_some_iff.mp later
    obtain ⟨rfl, rfl⟩ := Prod.mk.inj same
    rw [inductionHypothesis read, write_cons, q.spell_lettered ((q.meaning_iff meant l).mp known)]
    rfl
  | case5 => cases found
  | case6 c input open_ plain bare inductionHypothesis =>
    obtain ⟨⟨more, left⟩, read, same⟩ := Option.map_eq_some_iff.mp found
    obtain ⟨rfl, rfl⟩ := Prod.mk.inj same
    rw [inductionHypothesis read, write_cons, q.spell_bare (Option.not_isSome_iff_eq_none.mp bare)]
    rfl

omit [DecidableEq σ] in
/-- A symbol that has a letter and is no letter itself never stands between the quotes. -/
theorem not_mem_write {c : σ} (lettered : (q.letter c).isSome) (plain : c ≠ q.escape) (unused : q.meaning c = none)
    (text : List σ) : c ∉ q.write text := by
  intro stands
  obtain ⟨d, -, spelled⟩ := List.mem_flatMap.mp stands
  unfold spell at spelled
  split at spelled
  next l known =>
    obtain rfl | rfl : c = q.escape ∨ c = l := by simpa using spelled
    · exact plain rfl
    · simp [(q.meaning_iff d c).mpr known] at unused
  next bare =>
    obtain rfl := List.mem_singleton.mp spelled
    simp [bare] at lettered

end Quotes

/-! ## Lines -/

/-- The lines of a file whose lines all end with a symbol, the last one too. -/
def lines (stop : σ) : List σ → Option (List (List σ))
  | [] => some []
  | c :: rest =>
    if c = stop then (lines stop rest).map ([] :: ·)
    else
      match lines stop rest with
      | some (line :: more) => some ((c :: line) :: more)
      | _ => none

/-- The file of some lines. -/
def joined (stop : σ) (all : List (List σ)) : List σ := all.flatMap (· ++ [stop])

theorem lines_append {stop : σ} {line : List σ} (free : stop ∉ line) (rest : List σ) :
    lines stop (line ++ stop :: rest) = (lines stop rest).map (line :: ·) := by
  induction line with
  | nil => exact if_pos rfl
  | cons c line inductionHypothesis =>
    obtain ⟨first, later⟩ := not_or.mp (mt List.mem_cons.mpr free)
    rw [List.cons_append, lines, if_neg (Ne.symm first), inductionHypothesis later]
    cases lines stop rest <;> rfl

/-- A file has the lines it was made of, and a file with lines was made of them. -/
theorem lines_eq_some {stop : σ} {input : List σ} {all : List (List σ)} :
    lines stop input = some all ↔ input = joined stop all ∧ ∀ line ∈ all, stop ∉ line := by
  constructor
  · intro found
    induction input generalizing all with
    | nil =>
      obtain rfl := Option.some.inj found
      exact ⟨rfl, by simp⟩
    | cons c rest inductionHypothesis =>
      rw [lines] at found
      split at found
      next same =>
        subst same
        obtain ⟨more, read, rfl⟩ := Option.map_eq_some_iff.mp found
        obtain ⟨rfl, free⟩ := inductionHypothesis read
        exact ⟨rfl, List.forall_mem_cons.mpr ⟨List.not_mem_nil, free⟩⟩
      next other =>
        split at found
        next line more read =>
          obtain rfl := Option.some.inj found
          obtain ⟨rfl, free⟩ := inductionHypothesis read
          obtain ⟨first, later⟩ := List.forall_mem_cons.mp free
          refine ⟨rfl, List.forall_mem_cons.mpr ⟨fun stands => ?_, later⟩⟩
          obtain same | behind := List.mem_cons.mp stands
          · exact other same.symm
          · exact first behind
        next => cases found
  · rintro ⟨rfl, free⟩
    induction all with
    | nil => rfl
    | cons line more inductionHypothesis =>
      obtain ⟨first, later⟩ := List.forall_mem_cons.mp free
      have split : joined stop (line :: more) = line ++ stop :: joined stop more := by
        rw [joined, List.flatMap_cons, List.append_assoc]
        rfl
      rw [split, lines_append first, inductionHypothesis later]
      rfl

end Quoting
