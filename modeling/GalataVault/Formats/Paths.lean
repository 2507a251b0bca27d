import GalataVault.Formats.Children
import GalataVault.Owner.Tree

/-!
# Paths as texts

A path names a node of a project's key tree: one to four segments, the first of which
names the project. Local state keys the nodes of a tree by the texts of their paths, kits
and configuration files hold such texts, and users type them. Since no separator can stand
in a segment, a text is that of one path at most, and what lies beneath a node can be told
from the texts alone.
-/

namespace GalataVault.Formats

open Proto
open Owner (EnvPath maxDepth)

/-! ## The code -/

inductive PathError where
  | empty
  | tooDeep (depth : Nat)
  | emptySegment
  | segmentTooLong (segment : String)
  | badSegment (segment reason : String)
deriving DecidableEq

def Segment.new (s : String) : Except PathError Segment :=
  match bytes : utf8 s with
  | [] => .error .emptySegment
  | first :: rest =>
    if long : maxSegmentLen < (first :: rest).length then .error (.segmentTooLong s)
    else if starts : isSegmentStart first = false then
      .error (.badSegment s "must start with a lowercase letter or a digit")
    else if plain : ((first :: rest).all fun c => isSegmentStart c || c == 45) = false then
      .error (.badSegment s "only lowercase letters, digits and '-' are allowed")
    else .ok ⟨s, by
      unfold validSegment
      rw [bytes]
      rw [Bool.not_eq_false] at starts plain
      simp only [Bool.and_eq_true, decide_eq_true_eq]
      exact ⟨⟨Nat.le_of_not_lt long, starts⟩, plain⟩⟩

/-- A validated path. The first segment names the project. -/
structure Path where
  segments : List Segment
  nonempty : segments ≠ []
  bounded : segments.length ≤ maxDepth
deriving DecidableEq

namespace Path

theorem ext {p q : Path} (same : p.segments = q.segments) : p = q := by
  cases p
  cases q
  cases same
  rfl

def fromSegments (segments : List Segment) : Except PathError Path :=
  if none : segments = [] then .error .empty
  else if bounded : segments.length ≤ maxDepth then .ok ⟨segments, none, bounded⟩
  else .error (.tooDeep segments.length)

/-- The texts between the separators. -/
def pieces (s : String) : List String := (s.toList.splitOn '/').map String.ofList

def parse (s : String) : Except PathError Path :=
  if s = "" then .error .empty
  else do
    let segments ← (pieces s).mapM Segment.new
    fromSegments segments

/-- `Display`. -/
def text (p : Path) : String := "/".intercalate (p.segments.map Segment.name)

def project (name : Segment) : Path := ⟨[name], List.cons_ne_nil _ _, Nat.le_of_ble_eq_true rfl⟩

def projectName (p : Path) : Segment := p.segments.head p.nonempty

def depth (p : Path) : Nat := p.segments.length

def isProject (p : Path) : Bool := p.segments.length = 1

def last (p : Path) : Segment := p.segments.getLast p.nonempty

def parent (p : Path) : Option Path :=
  if long : 1 < p.segments.length then
    some ⟨p.segments.dropLast, by rw [← List.length_pos_iff, List.length_dropLast]; omega,
      by rw [List.length_dropLast]; exact Nat.le_trans (Nat.sub_le _ _) p.bounded⟩
  else none

def child (p : Path) (segment : Segment) : Except PathError Path := fromSegments (p.segments ++ [segment])

def startsWith (p q : Path) : Bool := q.segments.isPrefixOf p.segments

/-- The node of an owner's tree that a path names. -/
def toEnv (p : Path) : EnvPath where
  segments := p.segments.map Segment.name
  nonempty := fun none => p.nonempty (List.map_eq_nil_iff.mp none)
  bounded := by rw [List.length_map]; exact p.bounded

end Path

/-! ## Segments and their texts -/

theorem Segment.new_name (segment : Segment) : Segment.new segment.name = .ok segment := by
  have valid := segment.valid
  unfold validSegment at valid
  unfold Segment.new
  split
  · next none =>
    rw [none] at valid
    cases valid
  · next first rest bytes =>
    rw [bytes] at valid
    simp only [Bool.and_eq_true, decide_eq_true_eq] at valid
    obtain ⟨⟨short, starts⟩, plain⟩ := valid
    rw [dif_neg (Nat.not_lt.mpr short), dif_neg (Bool.not_eq_false _ ▸ starts), dif_neg (Bool.not_eq_false _ ▸ plain)]

theorem Segment.name_of_new {s : String} {segment : Segment} (made : Segment.new s = .ok segment) : segment.name = s := by
  unfold Segment.new at made
  split at made
  · cases made
  · split at made
    · cases made
    · split at made
      · cases made
      · split at made
        · cases made
        · rw [← Except.ok.inj made]

theorem Segment.name_ne_empty (segment : Segment) : segment.name ≠ "" := by
  intro none
  have valid := segment.valid
  rw [none, validSegment, utf8_eq_data] at valid
  exact absurd valid (by decide)

/-- The bytes of what stands in a text stand among the text's. -/
theorem mem_utf8_of_mem {s : String} {c : Char} (member : c ∈ s.toList) : ∀ b ∈ utf8 (String.ofList [c]), b ∈ utf8 s := by
  obtain ⟨before, after, whole⟩ := List.append_of_mem member
  have same : s = String.ofList before ++ String.ofList [c] ++ String.ofList after := by
    rw [← String.toList_inj, whole]
    simp
  intro b among
  rw [same, utf8_append, utf8_append]
  exact List.mem_append_left _ (List.mem_append_right _ among)

theorem Segment.slash_not_mem (segment : Segment) : '/' ∉ segment.name.toList := by
  intro member
  have byte : (47 : UInt8) ∈ utf8 segment.name := mem_utf8_of_mem member 47 (by rw [utf8_eq_data]; decide)
  have valid := segment.valid
  unfold validSegment at valid
  split at valid
  · cases valid
  · next first rest bytes =>
    simp only [Bool.and_eq_true] at valid
    rw [bytes] at byte
    exact absurd (List.all_eq_true.mp valid.2 47 byte) (by decide)

namespace Path

theorem mapM_names (segments : List Segment) : (segments.map Segment.name).mapM Segment.new = .ok segments := by
  induction segments with
  | nil => rfl
  | cons segment rest inductionHypothesis =>
    rw [List.map_cons, List.mapM_cons, Segment.new_name, inductionHypothesis]
    rfl

theorem names_of_mapM {texts : List String} {segments : List Segment} (made : texts.mapM Segment.new = .ok segments) :
    segments.map Segment.name = texts := by
  induction texts generalizing segments with
  | nil =>
    cases made
    rfl
  | cons s rest inductionHypothesis =>
    rw [List.mapM_cons] at made
    cases first : Segment.new s with
    | error e =>
      rw [first] at made
      cases made
    | ok segment =>
      rw [first] at made
      cases later : rest.mapM Segment.new with
      | error e =>
        rw [later] at made
        cases made
      | ok others =>
        rw [later] at made
        obtain rfl : segment :: others = segments := Except.ok.inj made
        rw [List.map_cons, Segment.name_of_new first, inductionHypothesis later]

theorem fromSegments_ok {segments : List Segment} {p : Path} :
    fromSegments segments = .ok p ↔ segments = p.segments := by
  unfold fromSegments
  constructor
  · intro made
    split at made
    · cases made
    · split at made
      · rw [← Except.ok.inj made]
      · cases made
  · rintro rfl
    rw [dif_neg p.nonempty, dif_pos p.bounded]

theorem text_toList (p : Path) : p.text.toList = ['/'].intercalate (p.segments.map fun segment => segment.name.toList) := by
  rw [text, String.toList_intercalate, List.map_map]
  rfl

theorem pieces_text (p : Path) : pieces p.text = p.segments.map Segment.name := by
  rw [pieces, text_toList, List.splitOn_intercalate, List.map_map]
  · refine List.map_congr_left fun segment _ => ?_
    exact String.ofList_toList
  · intro chars member
    obtain ⟨segment, _, rfl⟩ := List.mem_map.mp member
    exact segment.slash_not_mem
  · exact fun none => p.nonempty (List.map_eq_nil_iff.mp none)

theorem text_of_pieces {s : String} {p : Path} (same : pieces s = p.segments.map Segment.name) : s = p.text := by
  have joined : ['/'].intercalate (s.toList.splitOn '/') = s.toList := List.intercalate_splitOn '/'
  rw [← String.toList_inj, text_toList, ← joined]
  congr 1
  have lists := congrArg (List.map String.toList) same
  rw [pieces, List.map_map, List.map_map] at lists
  have back : (String.toList ∘ String.ofList) = id := funext fun chars => String.toList_ofList
  rw [back, List.map_id] at lists
  exact lists

theorem text_ne_empty (p : Path) : p.text ≠ "" := by
  intro none
  have split := pieces_text p
  rw [none] at split
  cases whole : p.segments with
  | nil => exact p.nonempty whole
  | cons segment rest =>
    rw [whole] at split
    exact segment.name_ne_empty (List.head_eq_of_cons_eq split).symm

/-- A text is read as the path whose text it is. -/
theorem parse_iff (s : String) (p : Path) : parse s = .ok p ↔ s = p.text := by
  constructor
  · intro parsed
    unfold parse at parsed
    split at parsed
    · cases parsed
    · cases made : (pieces s).mapM Segment.new with
      | error e =>
        rw [made] at parsed
        cases parsed
      | ok segments =>
        rw [made] at parsed
        obtain rfl := fromSegments_ok.mp parsed
        exact text_of_pieces (names_of_mapM made).symm
  · rintro rfl
    rw [parse, if_neg p.text_ne_empty, pieces_text, mapM_names]
    exact fromSegments_ok.mpr rfl

theorem text_injective {p q : Path} (same : p.text = q.text) : p = q := by
  have read := (parse_iff p.text q).mpr same
  rw [(parse_iff p.text p).mpr rfl] at read
  exact Except.ok.inj read

theorem mapM_error_iff {texts : List String} {e : PathError} :
    texts.mapM Segment.new = .error e ↔
      ∃ (before : List Segment) (bad : String) (after : List String),
        texts = before.map Segment.name ++ bad :: after ∧ Segment.new bad = .error e := by
  constructor
  · induction texts with
    | nil => intro made; cases made
    | cons s rest inductionHypothesis =>
      intro made
      rw [List.mapM_cons] at made
      cases first : Segment.new s with
      | error e' =>
        rw [first] at made
        obtain rfl : e' = e := Except.error.inj made
        exact ⟨[], s, rest, rfl, first⟩
      | ok segment =>
        rw [first] at made
        cases later : rest.mapM Segment.new with
        | ok others =>
          rw [later] at made
          cases made
        | error e' =>
          rw [later] at made
          obtain rfl : e' = e := Except.error.inj made
          obtain ⟨before, bad, after, whole, refused⟩ := inductionHypothesis later
          refine ⟨segment :: before, bad, after, ?_, refused⟩
          rw [List.map_cons, Segment.name_of_new first, List.cons_append, ← whole]
  · rintro ⟨before, bad, after, rfl, refused⟩
    induction before with
    | nil =>
      rw [List.map_nil, List.nil_append, List.mapM_cons, refused]
      rfl
    | cons segment before inductionHypothesis =>
      rw [List.map_cons, List.cons_append, List.mapM_cons, Segment.new_name, inductionHypothesis]
      rfl

theorem fromSegments_error {segments : List Segment} (some : segments ≠ []) {e : PathError} :
    fromSegments segments = .error e ↔ maxDepth < segments.length ∧ e = .tooDeep segments.length := by
  rw [fromSegments, dif_neg some]
  by_cases short : segments.length ≤ maxDepth
  · rw [dif_pos short]
    constructor
    · intro made
      cases made
    · rintro ⟨long, _⟩
      omega
  · rw [dif_neg short, Except.error.injEq]
    exact ⟨fun same => ⟨Nat.lt_of_not_le short, same.symm⟩, fun refused => refused.2.symm⟩

/-- A text is refused for its first piece that is no segment, or else for its depth. -/
theorem parse_error_iff (s : String) (e : PathError) :
    parse s = .error e ↔
      (s = "" ∧ e = .empty) ∨
      (s ≠ "" ∧ ∃ (before : List Segment) (bad : String) (after : List String),
        pieces s = before.map Segment.name ++ bad :: after ∧ Segment.new bad = .error e) ∨
      (∃ segments : List Segment, pieces s = segments.map Segment.name ∧ maxDepth < segments.length ∧
        e = .tooDeep segments.length) := by
  have some : pieces s ≠ [] := fun none => List.splitOn_ne_nil _ _ (List.map_eq_nil_iff.mp none)
  by_cases blank : s = ""
  · have alone : pieces s = [""] := by rw [blank]; rfl
    rw [parse, if_pos blank, Except.error.injEq]
    constructor
    · exact fun same => .inl ⟨blank, same.symm⟩
    · rintro (⟨_, same⟩ | ⟨other, _⟩ | ⟨segments, whole, deep, _⟩)
      · exact same.symm
      · exact absurd blank other
      · have lengths := congrArg List.length (alone.symm.trans whole)
        rw [List.length_map, List.length_singleton] at lengths
        rw [← lengths] at deep
        exact absurd deep (by decide)
  · rw [parse, if_neg blank]
    cases made : (pieces s).mapM Segment.new with
    | error e' =>
      rw [show ((Except.error e' : Except PathError (List Segment)) >>= fromSegments) = .error e' from rfl]
      rw [Except.error.injEq]
      constructor
      · rintro rfl
        exact .inr (.inl ⟨blank, mapM_error_iff.mp made⟩)
      · rintro (⟨none, _⟩ | ⟨_, refused⟩ | ⟨segments, whole, _⟩)
        · exact absurd none blank
        · exact Except.error.inj (made.symm.trans (mapM_error_iff.mpr refused))
        · rw [whole, mapM_names] at made
          cases made
    | ok segments =>
      have whole := names_of_mapM made
      have nonempty : segments ≠ [] := by
        rintro rfl
        exact some whole.symm
      rw [show ((Except.ok segments : Except PathError (List Segment)) >>= fromSegments) = fromSegments segments from rfl,
        fromSegments_error nonempty]
      constructor
      · rintro ⟨deep, rfl⟩
        exact .inr (.inr ⟨segments, whole.symm, deep, rfl⟩)
      · rintro (⟨none, _⟩ | ⟨_, refused⟩ | ⟨others, names, deep, rfl⟩)
        · exact absurd none blank
        · rw [mapM_error_iff.mpr refused] at made
          cases made
        · rw [names, mapM_names, Except.ok.injEq] at made
          rw [← made]
          exact ⟨deep, rfl⟩

/-! ## What lies beneath -/

theorem intercalate_append {left right : List (List Char)} (some : left ≠ []) (more : right ≠ []) :
    ['/'].intercalate (left ++ right) = ['/'].intercalate left ++ '/' :: ['/'].intercalate right := by
  induction left with
  | nil => exact absurd rfl some
  | cons first rest inductionHypothesis =>
    cases rest with
    | nil =>
      rw [List.singleton_append, List.intercalate_cons_of_ne_nil more, List.intercalate_singleton]
      simp
    | cons second rest =>
      rw [List.cons_append, List.intercalate_cons_of_ne_nil (by simp), List.intercalate_cons_of_ne_nil (by simp),
        inductionHypothesis (by simp)]
      simp

theorem names_prefix {p q : Path} :
    q.segments.map Segment.name <+: p.segments.map Segment.name ↔ q.segments <+: p.segments := by
  constructor
  · rintro ⟨rest, whole⟩
    obtain ⟨front, back, split, same, _⟩ := List.map_eq_append_iff.mp whole.symm
    rw [split, List.map_injective_iff.mpr Segment.name_injective same]
    exact List.prefix_append _ _
  · rintro ⟨rest, whole⟩
    rw [← whole, List.map_append]
    exact List.prefix_append _ _

/-- A path is at or beneath another if its text is the other's, or goes on with a separator
after it. -/
theorem startsWith_iff_text (p q : Path) :
    p.startsWith q = true ↔ p.text = q.text ∨ (q.text ++ "/").toList <+: p.text.toList := by
  rw [startsWith, List.isPrefixOf_iff_prefix]
  constructor
  · rintro ⟨rest, whole⟩
    cases rest with
    | nil =>
      rw [List.append_nil] at whole
      exact .inl (congrArg text (ext whole.symm))
    | cons segment rest =>
      refine .inr ⟨['/'].intercalate ((segment :: rest).map fun s => s.name.toList), ?_⟩
      rw [text_toList p, ← whole, List.map_append, intercalate_append (by simp [q.nonempty]) (by simp),
        String.toList_append, text_toList q]
      simp
  · rintro (same | ⟨rest, whole⟩)
    · rw [text_injective same]
    · apply names_prefix.mp
      rw [← pieces_text p, ← pieces_text q, pieces, pieces, ← whole, String.toList_append,
        show ("/" : String).toList = ['/'] from rfl, List.append_assoc, List.singleton_append, List.splitOn_append_cons_self,
        List.map_append]
      exact List.prefix_append _ _

/-! ## The node a path names -/

theorem toEnv_injective {p q : Path} (same : p.toEnv = q.toEnv) : p = q :=
  ext (List.map_injective_iff.mpr Segment.name_injective (congrArg EnvPath.segments same))

theorem toEnv_startsWith (p q : Path) : p.toEnv.startsWith q.toEnv = p.startsWith q := by
  rw [Bool.eq_iff_iff, EnvPath.startsWith_iff, startsWith, List.isPrefixOf_iff_prefix]
  exact names_prefix

theorem toEnv_parent (p : Path) : p.toEnv.parent = p.parent.map toEnv := by
  have lengths : p.toEnv.segments.length = p.segments.length := List.length_map ..
  unfold EnvPath.parent parent
  by_cases long : 1 < p.segments.length
  · rw [dif_pos long, dif_pos (by rw [lengths]; exact long), Option.map_some, Option.some.injEq]
    exact EnvPath.ext (List.map_dropLast ..).symm
  · rw [dif_neg long, dif_neg (by rw [lengths]; exact long)]
    rfl

theorem toEnv_child (p : Path) (segment : Segment) :
    p.toEnv.child segment.name = (p.child segment).toOption.map toEnv := by
  have lengths : p.toEnv.segments.length = p.segments.length := List.length_map ..
  have nonempty : p.segments ++ [segment] ≠ [] := List.append_ne_nil_of_right_ne_nil _ (List.cons_ne_nil _ _)
  have longer : (p.segments ++ [segment]).length = p.segments.length + 1 := List.length_append ..
  unfold child fromSegments
  rw [dif_neg nonempty]
  by_cases short : p.segments.length < maxDepth
  · rw [dif_pos (longer.trans_le short)]
    refine EnvPath.child_of_segments ?_
    exact List.map_append ..
  · rw [dif_neg (fun bounded => short (longer.symm.trans_le bounded))]
    unfold EnvPath.child
    rw [dif_neg (by rw [lengths]; exact short)]
    rfl

/-! ## The result -/

/-- Paths and their texts: a text is read as the path whose text it is, and refused for its
first piece that is no segment, or else for its depth. What lies at or beneath a path, in an
owner's tree as in the path's segments, shows in the texts. -/
theorem paths_exact :
    (∀ s p, parse s = .ok p ↔ s = p.text) ∧
    (∀ s e, parse s = .error e ↔
      (s = "" ∧ e = .empty) ∨
      (s ≠ "" ∧ ∃ (before : List Segment) (bad : String) (after : List String),
        pieces s = before.map Segment.name ++ bad :: after ∧ Segment.new bad = .error e) ∨
      (∃ segments : List Segment, pieces s = segments.map Segment.name ∧ maxDepth < segments.length ∧
        e = .tooDeep segments.length)) ∧
    (∀ p q : Path, p.toEnv.startsWith q.toEnv = true ↔ p.text = q.text ∨ (q.text ++ "/").toList <+: p.text.toList) ∧
    (∀ p q : Path, p.toEnv = q.toEnv ↔ p.text = q.text) := by
  refine ⟨parse_iff, parse_error_iff, fun p q => ?_, fun p q => ?_⟩
  · rw [toEnv_startsWith]
    exact startsWith_iff_text p q
  · exact ⟨fun same => congrArg text (toEnv_injective same), fun same => congrArg toEnv (text_injective same)⟩

end Path

end GalataVault.Formats
