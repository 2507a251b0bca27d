import Std.Data.TreeMap.Basic
import GalataVault.Library.Quoting
import GalataVault.Library.Transaction
import GalataVault.Formats.Envelopes
import GalataVault.Formats.LossyText

/-!
# What is exported and what a command is given

`gv export` writes the readable secrets as a file, `gv run` sets them in the environment of a
command. A file in the dotenv form is taken apart again without a loss: its lines, the name
before the first `=`, and the value between quotes, where a `$` or a line feed never stands
bare. The command has the variables of that file, but for those with a NUL.
-/

namespace GalataVault.Cli

open Proto Formats Relational

/-! ## The export -/

/-- An export format. -/
inductive Format where
  | dotenv
  | json
  | yaml
  deriving DecidableEq, Repr

/-- The texts that the JSON library writes. -/
class JsonText where
  string : String → String
  pretty : Std.TreeMap String String → String

def isEnvName (name : String) : Bool :=
  match name.toList with
  | [] => false
  | c :: rest => (c.isAlpha || c == '_') && rest.all fun c => c.isAlphanum || c == '_'

/-- A value as a text. -/
def utf8Text (label name : String) (value : List UInt8) : Except String String :=
  match String.fromUTF8? ⟨value.toArray⟩ with
  | some text => .ok text
  | none => .error s!"{label}: {name} is not UTF-8 text, so it cannot be exported"

/-- One character of a dotenv value. -/
def escaped : Char → List Char
  | '\\' => ['\\', '\\']
  | '"' => ['\\', '"']
  | '\n' => ['\\', 'n']
  | '$' => ['\\', '$']
  | c => [c]

def dotenvLine (label : String) : String × List UInt8 → Except String String
  | (name, bytes) => do
    if !isEnvName name then throw s!"{label}: {name} is not a valid dotenv name"
    let value ← utf8Text label name bytes
    pure (name ++ "=\"" ++ String.ofList (value.toList.flatMap escaped) ++ "\"\n")

def yamlLine [JsonText] (label : String) (secret : String × List UInt8) : Except String String := do
  let value ← utf8Text label secret.1 secret.2
  pure (JsonText.string secret.1 ++ ": " ++ JsonText.string value ++ "\n")

def jsonEntry (label : String) (secret : String × List UInt8) : Except String (String × String) := do
  let value ← utf8Text label secret.1 secret.2
  pure (secret.1, value)

def render [JsonText] (label : String) (format : Format) (secrets : List (String × List UInt8)) :
    Except String String :=
  match format with
  | .dotenv => do
    let lines ← secrets.mapM (dotenvLine label)
    pure (String.join lines)
  | .json => do
    let entries ← secrets.mapM (jsonEntry label)
    pure (JsonText.pretty (entries.foldl (fun map entry => map.insert entry.1 entry.2) ∅) ++ "\n")
  | .yaml => do
    let lines ← secrets.mapM (yamlLine label)
    pure (String.join lines)

/-! ## The command -/

/-- The variables of a process. -/
abbrev Environ := String → Option (List UInt8)

def cannotBe (label name : String) : String := s!"warning: {label}: {name} cannot be an environment variable; skipped"

/-- One secret set in the environment of a command, or skipped with a warning. -/
def setVar (label : String) (state : Environ × List String) (secret : String × List UInt8) : Environ × List String :=
  if !isEnvName secret.1 || secret.2.contains 0 then (state.1, state.2 ++ [cannotBe label secret.1])
  else (Function.update state.1 secret.1 (some secret.2), state.2)

/-- The environment `run` starts a command with, and what it says before. -/
def run (label : String) (inherited : Environ) (secrets : List (String × List UInt8)) : Environ × List String :=
  secrets.foldl (setVar label) (inherited, [])

/-! ## What a dotenv file says -/

/-- Double quotes, with the four characters that have a letter. -/
def doubleQuotes : Quoting.Quotes Char where
  close := '"'
  escape := '\\'
  letter c :=
    if c = '\\' then some '\\' else if c = '"' then some '"' else if c = '\n' then some 'n'
    else if c = '$' then some '$' else none
  meaning l :=
    if l = '\\' then some '\\' else if l = '"' then some '"' else if l = 'n' then some '\n'
    else if l = '$' then some '$' else none
  meaning_iff c l := by
    grind
  close_lettered := rfl
  escape_lettered := rfl
  apart := by decide

/-- The variable of one line: the name before the first `=`, and all of the rest between
double quotes. -/
def readLine (line : List Char) : Option (String × String) :=
  match line.dropWhile (· ≠ '=') with
  | '=' :: '"' :: rest =>
    match doubleQuotes.read rest with
    | some (value, []) =>
      let name := String.ofList (line.takeWhile (· ≠ '='))
      if isEnvName name then some (name, String.ofList value) else none
    | _ => none
  | _ => none

/-- The variables of a dotenv file. -/
def readDotenv (text : String) : Option (List (String × String)) :=
  (Quoting.lines '\n' text.toList).bind fun lines => lines.mapM readLine

/-- A variable as the secret that it is. -/
def asSecret (said : String × String) : String × List UInt8 := (said.1, utf8 said.2)

/-- The line of a variable. -/
def lineOf (said : String × String) : List Char :=
  said.1.toList ++ '=' :: '"' :: (doubleQuotes.write said.2.toList ++ ['"'])

theorem spell_eq_escaped (c : Char) : doubleQuotes.spell c = escaped c := by
  unfold Quoting.Quotes.spell doubleQuotes escaped
  grind

theorem write_eq_escaped (text : List Char) : doubleQuotes.write text = text.flatMap escaped := by
  rw [Quoting.Quotes.write, funext spell_eq_escaped]

theorem isEnvName_free {name : String} (valid : isEnvName name = true) {c : Char} (stands : c ∈ name.toList) :
    c.isAlphanum = true ∨ c = '_' := by
  unfold isEnvName at valid
  split at valid
  next => cases valid
  next first rest spelled =>
    obtain ⟨head, others⟩ := (Bool.and_eq_true _ _).mp valid
    rw [spelled] at stands
    obtain rfl | later := List.mem_cons.mp stands
    · obtain letter | line := (Bool.or_eq_true _ _).mp head
      · exact .inl (by simp [Char.isAlphanum, letter])
      · exact .inr (by simpa using line)
    · simpa using List.all_eq_true.mp others c later

theorem utf8Text_ok {label name : String} {value : List UInt8} {text : String} :
    utf8Text label name value = .ok text ↔ utf8 text = value := by
  unfold utf8Text
  constructor
  · intro made
    split at made
    next read =>
      obtain rfl := Except.ok.inj made
      exact utf8_of_fromUTF8? read
    next => cases made
  · rintro rfl
    rw [fromUTF8?_utf8]

/-! ## One line -/

theorem name_free {name : String} (valid : isEnvName name = true) {c : Char} (other : c.isAlphanum = false)
    (apart : c ≠ '_') : c ∉ name.toList := by
  intro stands
  obtain letter | line := isEnvName_free valid stands
  · simp [other] at letter
  · exact apart line

theorem lineOf_free {said : String × String} (valid : isEnvName said.1 = true) : '\n' ∉ lineOf said := by
  have named := name_free valid (c := '\n') (by decide) (by decide)
  have quoted := doubleQuotes.not_mem_write (c := '\n') rfl (by decide) rfl said.2.toList
  simp [lineOf, named, quoted]

theorem dotenvLine_ok {label : String} {secret : String × List UInt8} {line : String} :
    dotenvLine label secret = .ok line ↔
      ∃ said, isEnvName said.1 = true ∧ asSecret said = secret ∧ String.ofList (lineOf said ++ ['\n']) = line := by
  obtain ⟨name, bytes⟩ := secret
  have spelled (value : String) :
      name ++ "=\"" ++ String.ofList (value.toList.flatMap escaped) ++ "\"\n" =
        String.ofList (lineOf (name, value) ++ ['\n']) := by
    apply String.ext
    simp [lineOf, write_eq_escaped]
  unfold dotenvLine
  cases valid : isEnvName name with
  | false =>
    refine iff_of_false (by simp [valid]) ?_
    rintro ⟨said, known, same, -⟩
    obtain ⟨rfl, -⟩ := Prod.mk.inj same
    rw [valid] at known
    cases known
  | true =>
    simp only [valid, Bool.not_true, Bool.false_eq_true, if_false, outcome_bind_ok, outcome_pure_ok, utf8Text_ok,
      spelled]
    constructor
    · rintro ⟨value, rfl, rfl⟩
      exact ⟨(name, value), valid, rfl, rfl⟩
    · rintro ⟨⟨said, value⟩, -, same, rfl⟩
      obtain ⟨rfl, rfl⟩ := Prod.mk.inj same
      exact ⟨value, rfl, rfl⟩

theorem readLine_lineOf {said : String × String} (valid : isEnvName said.1 = true) :
    readLine (lineOf said) = some said := by
  have named : ∀ c ∈ said.1.toList, decide (c ≠ '=') = true := by
    intro c stands
    refine decide_eq_true ?_
    rintro rfl
    exact name_free valid (by decide) (by decide) stands
  have front : (lineOf said).takeWhile (· ≠ '=') = said.1.toList := by
    rw [lineOf, List.takeWhile_append_of_pos named]
    simp
  have back : (lineOf said).dropWhile (· ≠ '=') = '=' :: '"' :: (doubleQuotes.write said.2.toList ++ ['"']) := by
    rw [lineOf, List.dropWhile_append_of_pos named]
    simp
  have value : doubleQuotes.read (doubleQuotes.write said.2.toList ++ ['"']) = some (said.2.toList, []) :=
    doubleQuotes.read_write said.2.toList []
  unfold readLine
  rw [front, back]
  split
  next rest same =>
    obtain rfl : _ = rest := (List.cons.inj (List.cons.inj same).2).2
    rw [value]
    simp [valid]
  next other => exact absurd rfl (other _)

theorem readLine_eq_some {line : List Char} {said : String × String} :
    readLine line = some said ↔ isEnvName said.1 = true ∧ lineOf said = line := by
  constructor
  · intro found
    have whole := line.takeWhile_append_dropWhile (p := (· ≠ '='))
    unfold readLine at found
    split at found
    next rest behind =>
      split at found
      next value read =>
        dsimp only at found
        split at found
        next valid =>
          obtain rfl := Option.some.inj found
          refine ⟨valid, ?_⟩
          rw [behind, doubleQuotes.write_of_read read] at whole
          refine Eq.trans ?_ whole
          simp only [lineOf, String.toList_ofList]
          rfl
        next => cases found
      next => cases found
    next => cases found
  · rintro ⟨valid, rfl⟩
    exact readLine_lineOf valid

/-! ## All lines -/

theorem mapM_readLine {lines : List (List Char)} {all : List (String × String)} :
    lines.mapM readLine = some all ↔ (∀ said ∈ all, isEnvName said.1 = true) ∧ all.map lineOf = lines := by
  induction lines generalizing all with
  | nil =>
    simp only [List.mapM_nil, List.map_eq_nil_iff]
    constructor
    · intro made
      obtain rfl := Option.some.inj made
      exact ⟨by simp, rfl⟩
    · rintro ⟨-, rfl⟩
      rfl
  | cons line lines inductionHypothesis =>
    rw [List.mapM_cons]
    simp only [Option.bind_eq_bind, Option.bind_eq_some_iff, readLine_eq_some, inductionHypothesis, Option.pure_def,
      Option.some.injEq]
    constructor
    · rintro ⟨said, ⟨valid, rfl⟩, others, ⟨each, rfl⟩, rfl⟩
      exact ⟨List.forall_mem_cons.mpr ⟨valid, each⟩, rfl⟩
    · rintro ⟨each, same⟩
      obtain ⟨said, others, rfl, rfl, rfl⟩ := List.map_eq_cons_iff.mp same
      obtain ⟨valid, later⟩ := List.forall_mem_cons.mp each
      exact ⟨said, ⟨valid, rfl⟩, others, ⟨later, rfl⟩, rfl⟩

theorem mapM_dotenvLine {label : String} {secrets : List (String × List UInt8)} {lines : List String} :
    secrets.mapM (dotenvLine label) = .ok lines ↔
      ∃ all : List (String × String), (∀ said ∈ all, isEnvName said.1 = true) ∧ all.map asSecret = secrets ∧
        all.map (fun said => String.ofList (lineOf said ++ ['\n'])) = lines := by
  induction secrets generalizing lines with
  | nil =>
    rw [List.mapM_nil, outcome_pure_ok]
    constructor
    · rintro rfl
      exact ⟨[], by simp, rfl, rfl⟩
    · rintro ⟨all, -, none, rfl⟩
      obtain rfl := List.map_eq_nil_iff.mp none
      rfl
  | cons secret secrets inductionHypothesis =>
    rw [List.mapM_cons]
    simp only [outcome_bind_ok, outcome_pure_ok, dotenvLine_ok, inductionHypothesis]
    constructor
    · rintro ⟨line, ⟨said, valid, rfl, rfl⟩, others, ⟨all, each, rfl, rfl⟩, rfl⟩
      exact ⟨said :: all, List.forall_mem_cons.mpr ⟨valid, each⟩, rfl, rfl⟩
    · rintro ⟨all, each, same, rfl⟩
      obtain ⟨said, others, rfl, rfl, rfl⟩ := List.map_eq_cons_iff.mp same
      obtain ⟨valid, later⟩ := List.forall_mem_cons.mp each
      exact ⟨_, ⟨said, valid, rfl, rfl⟩, _, ⟨others, later, rfl, rfl⟩, rfl⟩

theorem readDotenv_eq_some {text : String} {all : List (String × String)} :
    readDotenv text = some all ↔
      (∀ said ∈ all, isEnvName said.1 = true) ∧ text.toList = Quoting.joined '\n' (all.map lineOf) := by
  simp only [readDotenv, Option.bind_eq_some_iff, Quoting.lines_eq_some, mapM_readLine]
  constructor
  · rintro ⟨lines, ⟨same, -⟩, each, rfl⟩
    exact ⟨each, same⟩
  · rintro ⟨each, same⟩
    refine ⟨_, ⟨same, ?_⟩, each, rfl⟩
    intro line stands
    obtain ⟨said, among, rfl⟩ := List.mem_map.mp stands
    exact lineOf_free (each said among)

/-- What is written, and when: every name can be a variable and every value is a text. -/
theorem render_dotenv_ok [JsonText] {label : String} {secrets : List (String × List UInt8)} {text : String} :
    render label .dotenv secrets = .ok text ↔
      ∃ all : List (String × String), (∀ said ∈ all, isEnvName said.1 = true) ∧ all.map asSecret = secrets ∧
        text.toList = Quoting.joined '\n' (all.map lineOf) := by
  simp only [render, outcome_bind_ok, outcome_pure_ok, mapM_dotenvLine]
  have file (all : List (String × String)) :
      (String.join (all.map fun said => String.ofList (lineOf said ++ ['\n']))).toList =
        Quoting.joined '\n' (all.map lineOf) := by
    rw [String.toList_join, Quoting.joined, List.flatMap_map, List.flatMap_map]
    simp only [String.toList_ofList]
  constructor
  · rintro ⟨lines, ⟨all, each, rfl, rfl⟩, rfl⟩
    exact ⟨all, each, rfl, file all⟩
  · rintro ⟨all, each, rfl, same⟩
    refine ⟨_, ⟨all, each, rfl, rfl⟩, ?_⟩
    apply String.ext
    rw [file, same]

/-- A dotenv export is written exactly where its reader finds the secrets in it: no value
ends its quotes early, spans two lines or is expanded. -/
theorem dotenv_exact [JsonText] (label : String) (secrets : List (String × List UInt8)) (text : String) :
    render label .dotenv secrets = .ok text ↔ ∃ all, readDotenv text = some all ∧ all.map asSecret = secrets := by
  simp only [render_dotenv_ok, readDotenv_eq_some]
  constructor
  · rintro ⟨all, each, same, file⟩
    exact ⟨all, ⟨each, file⟩, same⟩
  · rintro ⟨all, ⟨each, file⟩, same⟩
    exact ⟨all, each, same, file⟩

/-! ## What cannot be exported -/

theorem error_of_mapM {α β : Type} {f : α → Except String β} {l : List α} {message : String}
    (failed : l.mapM f = .error message) : ∃ a ∈ l, f a = .error message := by
  induction l with
  | nil => cases failed
  | cons a l inductionHypothesis =>
    rw [List.mapM_cons] at failed
    cases first : f a with
    | error e =>
      rw [first] at failed
      obtain rfl : e = message := Except.error.inj failed
      exact ⟨a, List.mem_cons_self, first⟩
    | ok b =>
      rw [first] at failed
      cases rest : l.mapM f with
      | error e =>
        rw [rest] at failed
        obtain rfl : e = message := Except.error.inj failed
        obtain ⟨other, among, same⟩ := inductionHypothesis rest
        exact ⟨other, List.mem_cons_of_mem _ among, same⟩
      | ok others =>
        rw [rest] at failed
        cases failed

/-- Where the last step cannot fail, the first one did. -/
theorem error_of_bind {α β : Type} {first : Except String α} {last : α → Except String β} {message : String}
    (total : ∀ a, ∃ b, last a = .ok b) (failed : (first >>= last) = .error message) : first = .error message := by
  cases first with
  | error e =>
    obtain rfl : e = message := Except.error.inj failed
    rfl
  | ok a =>
    obtain ⟨b, done⟩ := total a
    cases failed.symm.trans done

/-- The refusal of one secret, in whatever form it would be written. -/
def Refused (label message : String) (secret : String × List UInt8) : Prop :=
  utf8Text label secret.1 secret.2 = .error message ∨
    isEnvName secret.1 = false ∧ message = s!"{label}: {secret.1} is not a valid dotenv name"

theorem dotenvLine_error {label message : String} {secret : String × List UInt8}
    (failed : dotenvLine label secret = .error message) : Refused label message secret := by
  obtain ⟨name, bytes⟩ := secret
  unfold dotenvLine at failed
  cases valid : isEnvName name with
  | false =>
    simp only [valid, Bool.not_false, if_true] at failed
    exact .inr ⟨valid, (Except.error.inj failed).symm⟩
  | true =>
    simp only [valid, Bool.not_true, Bool.false_eq_true, if_false] at failed
    exact .inl (error_of_bind (fun _ => ⟨_, rfl⟩) failed)

/-- A failed export names a secret that it cannot write. -/
theorem render_error [JsonText] {label message : String} {format : Format} {secrets : List (String × List UInt8)}
    (failed : render label format secrets = .error message) : ∃ secret ∈ secrets, Refused label message secret := by
  cases format with
  | dotenv =>
    obtain ⟨secret, among, refused⟩ := error_of_mapM (error_of_bind (fun _ => ⟨_, rfl⟩) failed)
    exact ⟨secret, among, dotenvLine_error refused⟩
  | json =>
    obtain ⟨secret, among, refused⟩ := error_of_mapM (error_of_bind (fun _ => ⟨_, rfl⟩) failed)
    exact ⟨secret, among, .inl (error_of_bind (fun _ => ⟨_, rfl⟩) refused)⟩
  | yaml =>
    obtain ⟨secret, among, refused⟩ := error_of_mapM (error_of_bind (fun _ => ⟨_, rfl⟩) failed)
    exact ⟨secret, among, .inl (error_of_bind (fun _ => ⟨_, rfl⟩) refused)⟩

/-! ## The command and the file -/

/-- The environment after the variables of a file are set in it, one after the other. -/
def sourced (inherited : Environ) (all : List (String × String)) : Environ :=
  all.foldl (fun env said => Function.update env said.1 (some (utf8 said.2))) inherited

/-- A value that no variable can have. -/
def hasNul (said : String × String) : Bool := said.2.toList.contains (Char.ofNat 0)

theorem contains_nul (text : String) : (utf8 text).contains 0 = text.toList.contains (Char.ofNat 0) := by
  have bytes : utf8 text = encode text.toList := by
    rw [← utf8_ofList, String.ofList_toList]
  rw [bytes, Bool.eq_iff_iff, List.contains_iff_mem, List.contains_iff_mem]
  constructor
  · intro stands
    obtain ⟨before, behind, split⟩ := List.append_of_mem stands
    obtain ⟨front, back, same, -, -⟩ := split_at_ascii (by decide) split
    rw [same]
    exact List.mem_append_right _ List.mem_cons_self
  · intro stands
    exact List.mem_flatMap.mpr ⟨Char.ofNat 0, stands, by decide⟩

/-- One secret after the other: it is set, or it is skipped with a warning. The induction is
on the secrets, for every environment and warning so far. -/
theorem run_from {label : String} {all : List (String × String)} (each : ∀ said ∈ all, isEnvName said.1 = true)
    (inherited : Environ) (told : List String) :
    (all.map asSecret).foldl (setVar label) (inherited, told) =
      (sourced inherited (all.filter fun said => !hasNul said),
        told ++ (all.filter hasNul).map fun said => cannotBe label said.1) := by
  induction all generalizing inherited told with
  | nil =>
    simp only [List.filter_nil, List.map_nil, List.append_nil]
    rfl
  | cons said all inductionHypothesis =>
    obtain ⟨valid, later⟩ := List.forall_mem_cons.mp each
    have nul : (asSecret said).2.contains 0 = hasNul said := contains_nul said.2
    have named : isEnvName (asSecret said).1 = true := valid
    rw [List.map_cons, List.foldl_cons, setVar, nul, named]
    cases has : hasNul said with
    | true =>
      rw [List.filter_cons_of_neg (by simp [has]), List.filter_cons_of_pos has]
      refine (inductionHypothesis later _ _).trans ?_
      rw [List.append_assoc]
      rfl
    | false =>
      rw [List.filter_cons_of_pos (by simp [has]), List.filter_cons_of_neg (by simp [has])]
      exact inductionHypothesis later _ _

/-- The JSON library on texts that need no escape. -/
@[reducible]
def plainJson : JsonText where
  string text := "\"" ++ text ++ "\""
  pretty entries :=
    let lines := entries.toList.map fun entry => "  \"" ++ entry.1 ++ "\": \"" ++ entry.2 ++ "\""
    "\x7b\n" ++ ",\n".intercalate lines ++ "\n\x7d"

end GalataVault.Cli
