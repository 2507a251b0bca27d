import GalataVault.Formats.Checked
import GalataVault.Formats.Envelopes
import GalataVault.Formats.Paths
import GalataVault.Library.Comparison
import GalataVault.Library.Occurrences
import GalataVault.Proto.Decoding

/-!
# Requests to the local page

What the server on the loopback interface reads of a request, and refuses. A URL carries a few
query keys only, and never anything that looks like a key or a token. Paths and queries are
percent-encoded, and are read back as they were written.
-/

namespace GalataVault.Ui

open Proto
open Formats (asciiText keyPrefix tokenPrefix utf8_asciiText)
open Server (trimBoth isWhitespace)

/-! ## The code -/

/-- No request body is larger. -/
def maxBody : Nat := 64 * 1024

/-- The only query keys a URL may carry. -/
def queryKeys : List String := ["name", "with", "all"]

/-- A byte read as a character, read as a digit. -/
def hexDigit (b : UInt8) : Option Nat := hexValue (Char.ofNat b.toNat)

/-- Percent-decoding; `plus` also turns `+` into a space. -/
def decodeBytes (plus : Bool) : List UInt8 → Option (List UInt8)
  | [] => some []
  | b :: rest =>
    if b = 37 then
      match rest with
      | hi :: lo :: rest => do
        let hi ← hexDigit hi
        let lo ← hexDigit lo
        let out ← decodeBytes plus rest
        pure (UInt8.ofNat (hi * 16 + lo) :: out)
      | _ => none
    else (decodeBytes plus rest).map ((if b = 43 ∧ plus = true then 32 else b) :: ·)

def decode (s : String) (plus : Bool) : Option String := do
  let out ← decodeBytes plus (utf8 s)
  String.fromUTF8? ⟨out.toArray⟩

/-- A byte that stands for itself in a path segment or a query value. -/
def isPlain (b : UInt8) : Bool :=
  (48 ≤ b && b ≤ 57) || (65 ≤ b && b ≤ 90) || (97 ≤ b && b ≤ 122) || [45, 46, 95, 126].contains b

/-- A digit of `:02X`, as a byte. -/
def upperHexDigit (n : Nat) : UInt8 := UInt8.ofNat (if n < 10 then 48 + n else 55 + n)

def encodeByte (b : UInt8) : List UInt8 :=
  if isPlain b then [b] else [37, upperHexDigit (b.toNat / 16), upperHexDigit (b.toNat % 16)]

/-- Percent-encoding for a path segment or query value. -/
def encode (s : String) : String := asciiText ((utf8 s).flatMap encodeByte)

/-- What stands before and after the first `separator`. -/
def splitOnce (separator : Char) (s : List Char) : Option (List Char × List Char) := Occurrences.first [separator] s

/-- A value that looks like a key or a token. -/
def looksSecret (v : String) : Bool :=
  let lower := v.toList.map Char.toLower
  [keyPrefix, tokenPrefix].any fun p => p.toList <:+: lower

def parsePair (pair : List Char) : Option (String × String) := do
  let (k, v) := (splitOnce '=' pair).getD (pair, [])
  let k ← decode (String.ofList k) true
  let v ← decode (String.ofList v) true
  if !queryKeys.contains k || looksSecret v then none else some (k, v)

def parseQuery (q : List Char) : Option (List (String × String)) :=
  ((q.splitOn '&').filter (· ≠ [])).mapM parsePair

/-- A request as the listener has it. `body` is nothing if it could not be read. -/
structure RawRequest where
  method : String
  url : String
  headers : List (String × String)
  body : Option (List UInt8)

structure Req where
  method : String
  path : String
  query : List (String × String)
  host : Option String
  origin : Option String
  /-- The request carries `X-GV-UI: 1`. -/
  gvUi : Bool
  cookies : Option String
  body : List UInt8

/-- Header fields are the same whatever the case of their letters. -/
def RawRequest.header (raw : RawRequest) (name : String) : Option String :=
  (raw.headers.find? fun h => h.1.toList.map Char.toLower = name.toList.map Char.toLower).map (·.2)

/-- Read a request, or the status to refuse it with. -/
def Req.read (raw : RawRequest) : Except Nat Req :=
  let (path, query) := (splitOnce '?' raw.url.toList).getD (raw.url.toList, [])
  match decode (String.ofList path) false, parseQuery query with
  | none, _ => .error 400
  | some _, none => .error 400
  | some path, some query =>
    match raw.body with
    | none => .error 400
    | some body =>
      if maxBody < body.length then .error 413
      else
        .ok
          { method := raw.method
            path
            query
            host := raw.header "Host"
            origin := raw.header "Origin"
            gvUi := raw.header "X-GV-UI" = some "1"
            cookies := raw.header "Cookie"
            body }

namespace Req

def q (req : Req) (key : String) : Option String := (req.query.find? fun pair => pair.1 = key).map (·.2)

/-- The first cookie of that name. -/
def cookie (req : Req) (name : String) : Option String :=
  req.cookies.bind fun cookies => (cookies.toList.splitOn ';').findSome? fun c => do
    let (k, v) ← splitOnce '=' (trimBoth isWhitespace c)
    if k = name.toList then some (String.ofList v) else none

end Req

/-- Equality that takes the same time wherever the texts differ. -/
def same (a b : String) : Bool :=
  (utf8 a).length == (utf8 b).length && ((utf8 a).zip (utf8 b)).foldl (fun acc xy => acc ||| (xy.1 ^^^ xy.2)) 0 == 0

/-- The page of a secret's versions. -/
def historyUrl (env name : String) (all : Bool) : String :=
  "/e/" ++ env ++ "/secrets?name=" ++ encode name ++ if all then "&all=1" else ""

/-! ## The comparison is equality -/

theorem same_iff {a b : String} : same a b = true ↔ a = b := by
  simp only [same, Bool.and_eq_true, beq_iff_eq]
  constructor
  · rintro ⟨size, nowhere⟩
    exact utf8_injective ((Comparison.differences_eq_zero size).mp nowhere)
  · rintro rfl
    exact ⟨rfl, (Comparison.differences_eq_zero rfl).mpr rfl⟩

/-! ## What is written is read back -/

theorem hexDigit_upper : ∀ n < 16, hexDigit (upperHexDigit n) = some n := by decide

theorem isPlain_ascii {b : UInt8} (plain : isPlain b = true) : b.toNat < 128 ∧ b ≠ 37 ∧ b ≠ 43 ∧ b ≠ 38 ∧ b ≠ 61 := by
  have every : ∀ n < 256, isPlain (UInt8.ofNat n) = true →
      n < 128 ∧ UInt8.ofNat n ≠ 37 ∧ UInt8.ofNat n ≠ 43 ∧ UInt8.ofNat n ≠ 38 ∧ UInt8.ofNat n ≠ 61 := by decide +kernel
  have here := every b.toNat b.toNat_lt
  rw [UInt8.ofNat_toNat] at here
  exact here plain

theorem upperHexDigit_ascii : ∀ n < 16, (upperHexDigit n).toNat < 128 ∧ upperHexDigit n ≠ 38 ∧ upperHexDigit n ≠ 61 := by decide

theorem decodeBytes_encode (plus : Bool) (bytes : List UInt8) : decodeBytes plus (bytes.flatMap encodeByte) = some bytes := by
  induction bytes with
  | nil => rfl
  | cons b rest inductionHypothesis =>
    rw [List.flatMap_cons, encodeByte]
    split
    · next plain =>
      obtain ⟨-, percent, space, -⟩ := isPlain_ascii plain
      rw [List.singleton_append, decodeBytes.eq_def]
      simp only [if_neg percent, space, false_and, if_false, inductionHypothesis, Option.map_some]
    · have high := hexDigit_upper (b.toNat / 16) (by have := b.toNat_lt; omega)
      have low := hexDigit_upper (b.toNat % 16) (Nat.mod_lt _ (by decide))
      have whole : UInt8.ofNat (b.toNat / 16 * 16 + b.toNat % 16) = b := by
        rw [Nat.div_add_mod', UInt8.ofNat_toNat]
      rw [decodeBytes.eq_def]
      simp only [List.cons_append, List.nil_append, if_true, high, low, inductionHypothesis]
      exact congrArg some (congrArg (· :: rest) whole)

theorem encoded_plain {s : String} : ∀ b ∈ (utf8 s).flatMap encodeByte, b.toNat < 128 ∧ b ≠ 38 ∧ b ≠ 61 := by
  intro b member
  obtain ⟨c, _, among⟩ := List.mem_flatMap.mp member
  rw [encodeByte] at among
  split at among
  · next plain =>
    obtain rfl := List.mem_singleton.mp among
    obtain ⟨ascii, -, -, ampersand, equals⟩ := isPlain_ascii plain
    exact ⟨ascii, ampersand, equals⟩
  · simp only [List.mem_cons, List.not_mem_nil, or_false] at among
    obtain rfl | rfl | rfl := among
    · decide
    · exact upperHexDigit_ascii _ (by have := c.toNat_lt; omega)
    · exact upperHexDigit_ascii _ (Nat.mod_lt _ (by decide))

/-- What is encoded is decoded to what it was. -/
theorem decode_encode (s : String) (plus : Bool) : decode (encode s) plus = some s := by
  rw [decode, encode, utf8_asciiText fun b member => (encoded_plain b member).1, decodeBytes_encode]
  exact fromUTF8?_utf8 s

/-! ## Links -/

/-- A character whose bytes stand nowhere among a text's does not stand in it. -/
theorem not_mem_of_bytes {s : String} {c : Char} {b : UInt8} (single : utf8 (String.ofList [c]) = [b]) (free : b ∉ utf8 s) :
    c ∉ s.toList := fun member => free (Formats.mem_utf8_of_mem member b (by rw [single]; exact List.mem_singleton_self _))

theorem splitOnce_append {separator : Char} {before : List Char} (free : separator ∉ before) (after : List Char) :
    splitOnce separator (before ++ separator :: after) = some (before, after) := by
  induction before with
  | nil => simp [splitOnce, Occurrences.first]
  | cons c rest inductionHypothesis =>
    obtain ⟨other, free⟩ := not_or.mp (List.mem_cons.not.mp free)
    rw [List.cons_append, splitOnce, Occurrences.first, if_neg (by simp [other]), ← splitOnce, inductionHypothesis free]
    rfl

/-- Where nothing is encoded, nothing is decoded. -/
theorem decode_plain {s : String} {plus : Bool} (percent : 37 ∉ utf8 s) (space : plus = true → 43 ∉ utf8 s) :
    decode s plus = some s := by
  have whole : ∀ bytes : List UInt8, 37 ∉ bytes → (plus = true → 43 ∉ bytes) → decodeBytes plus bytes = some bytes := by
    intro bytes percent space
    induction bytes with
    | nil => rfl
    | cons b rest inductionHypothesis =>
      obtain ⟨other, percent⟩ := not_or.mp (List.mem_cons.not.mp percent)
      have kept : ¬(b = 43 ∧ plus = true) := fun ⟨isSpace, given⟩ => space given (isSpace ▸ List.mem_cons_self)
      rw [decodeBytes.eq_def]
      simp only [if_neg (Ne.symm other), if_neg kept,
        inductionHypothesis percent fun given member => space given (List.mem_cons_of_mem _ member), Option.map_some]
  rw [decode, whole _ percent space]
  exact fromUTF8?_utf8 s

/-- The bytes of a segment are lowercase letters, digits and hyphens. -/
theorem segment_bytes (segment : Formats.Segment) : ∀ b ∈ utf8 segment.name, Formats.isSegmentStart b = true ∨ b = 45 := by
  intro b member
  have valid := segment.valid
  unfold Formats.validSegment at valid
  split at valid
  · cases valid
  · next first rest bytes =>
    rw [bytes] at member
    simp only [Bool.and_eq_true] at valid
    simpa using List.all_eq_true.mp valid.2 b member

/-- The bytes of a path are those of its segments and its separators. -/
theorem text_bytes (p : Formats.Path) : ∀ b ∈ utf8 p.text, Formats.isSegmentStart b = true ∨ b = 45 ∨ b = 47 := by
  have names : ∀ segments : List Formats.Segment, ∀ b ∈ utf8 ("/".intercalate (segments.map Formats.Segment.name)),
      Formats.isSegmentStart b = true ∨ b = 45 ∨ b = 47 := by
    intro segments
    induction segments with
    | nil =>
      intro b member
      rw [List.map_nil, String.intercalate_nil, utf8_eq_data] at member
      cases member
    | cons segment rest inductionHypothesis =>
      intro b member
      rw [List.map_cons] at member
      by_cases last : rest = []
      · subst last
        rw [List.map_nil, String.intercalate_singleton] at member
        exact (segment_bytes segment b member).imp_right .inl
      · rw [String.intercalate_cons_of_ne_nil (by simpa using last), utf8_append, utf8_append, List.mem_append,
          List.mem_append] at member
        obtain (here | separator) | later := member
        · exact (segment_bytes segment b here).imp_right .inl
        · have slash : utf8 "/" = [47] := by
            rw [utf8_eq_data]
            decide
          rw [slash] at separator
          exact .inr (.inr (List.mem_singleton.mp separator))
        · exact inductionHypothesis b later
  exact names p.segments

theorem encode_free {c : Char} {b : UInt8} (single : utf8 (String.ofList [c]) = [b]) (special : b = 38 ∨ b = 61) (s : String) :
    c ∉ (encode s).toList := by
  refine not_mem_of_bytes single ?_
  rw [encode, utf8_asciiText fun b member => (encoded_plain b member).1]
  intro member
  obtain ⟨-, ampersand, equals⟩ := encoded_plain b member
  exact special.elim ampersand equals

theorem parsePair_name (name : String) : parsePair ("name=".toList ++ (encode name).toList) =
    if looksSecret name then none else some ("name", name) := by
  have split : splitOnce '=' ("name=".toList ++ (encode name).toList) = some ("name".toList, (encode name).toList) :=
    splitOnce_append (show '=' ∉ "name".toList by decide) _
  have key : decode "name" true = some "name" :=
    decode_plain (by rw [utf8_eq_data]; decide) fun _ => by rw [utf8_eq_data]; decide
  unfold parsePair
  rw [split]
  simp only [Option.getD_some, String.ofList_toList, key, decode_encode]
  rfl

theorem parsePair_all : parsePair "all=1".toList = some ("all", "1") := by
  have key : decode "all" true = some "all" :=
    decode_plain (by rw [utf8_eq_data]; decide) fun _ => by rw [utf8_eq_data]; decide
  have one : decode "1" true = some "1" :=
    decode_plain (by rw [utf8_eq_data]; decide) fun _ => by rw [utf8_eq_data]; decide
  have split : splitOnce '=' "all=1".toList = some ("all".toList, "1".toList) := by decide
  unfold parsePair
  rw [split]
  simp only [Option.getD_some, String.ofList_toList, key, one]
  decide

theorem parseQuery_history (name : String) (all : Bool) :
    parseQuery ("name=".toList ++ (encode name).toList ++ if all then "&all=1".toList else []) =
      if looksSecret name then none else some (("name", name) :: if all then [("all", "1")] else []) := by
  have free : '&' ∉ "name=".toList ++ (encode name).toList := by
    rw [List.mem_append, not_or]
    exact ⟨by decide, encode_free (by rw [utf8_eq_data]; decide) (.inl rfl) name⟩
  have filled : "name=".toList ++ (encode name).toList ≠ [] := List.append_ne_nil_of_left_ne_nil (by decide) _
  have pair := parsePair_name name
  generalize "name=".toList ++ (encode name).toList = first at *
  cases all with
  | false =>
    have split : first.splitOn '&' = [first] := by
      have whole : (['&'].intercalate [first]).splitOn '&' = [first] :=
        List.splitOn_intercalate '&' (by simpa using free) (by simp)
      simpa using whole
    unfold parseQuery
    simp only [Bool.false_eq_true, if_false, List.append_nil, split]
    simp only [ne_eq, filled, not_false_eq_true, decide_true, List.filter_cons_of_pos, List.filter_nil, List.mapM_cons, pair,
      List.mapM_nil]
    cases looksSecret name <;> rfl
  | true =>
    have split : (first ++ "&all=1".toList).splitOn '&' = [first, "all=1".toList] := by
      have whole : (['&'].intercalate [first, "all=1".toList]).splitOn '&' = [first, "all=1".toList] :=
        List.splitOn_intercalate '&' (by
          intro piece member
          simp only [List.mem_cons, List.not_mem_nil, or_false] at member
          obtain rfl | rfl := member
          · exact free
          · decide) (by simp)
      simpa using whole
    have flagged : "all=1".toList ≠ [] := by decide
    unfold parseQuery
    simp only [if_true, split]
    simp only [ne_eq, filled, flagged, not_false_eq_true, decide_true, List.filter_cons_of_pos, List.filter_nil, List.mapM_cons,
      pair, parsePair_all, List.mapM_nil]
    cases looksSecret name <;> rfl

/-- For every environment, every name and either kind of listing: the link to the versions of a
secret is read as that page, that name and that listing, unless the name looks like a key or a
token. A request for such a link is refused. -/
theorem read_historyUrl (env : Formats.Path) (name : String) (all : Bool) (raw : RawRequest)
    (url : raw.url = historyUrl env.text name all) :
    (looksSecret name = true → Req.read raw = .error 400) ∧
    (looksSecret name = false → ∀ body, raw.body = some body → body.length ≤ maxBody →
      ∃ req, Req.read raw = .ok req ∧ req.path = "/e/" ++ env.text ++ "/secrets" ∧ req.q "name" = some name ∧
        ((req.q "all").isSome ↔ all = true)) := by
  have address : ∀ {b}, b ∈ utf8 ("/e/" ++ env.text ++ "/secrets") → b ≠ 37 ∧ b ≠ 63 := by
    intro b member
    rw [utf8_append, utf8_append, List.mem_append, List.mem_append] at member
    obtain (start | here) | tab := member
    · have bytes : ∀ b ∈ utf8 "/e/", b ≠ 37 ∧ b ≠ 63 := by
        rw [utf8_eq_data]
        decide +kernel
      exact bytes b start
    · obtain letter | rfl | rfl := text_bytes env b here
      · constructor <;> rintro rfl <;> exact absurd letter (by decide)
      · decide
      · decide
    · have bytes : ∀ b ∈ utf8 "/secrets", b ≠ 37 ∧ b ≠ 63 := by
        rw [utf8_eq_data]
        decide +kernel
      exact bytes b tab
  have noMark : '?' ∉ ("/e/" ++ env.text ++ "/secrets").toList :=
    not_mem_of_bytes (by rw [utf8_eq_data]; decide) fun member => (address member).2 rfl
  have parts : splitOnce '?' raw.url.toList = some (("/e/" ++ env.text ++ "/secrets").toList,
      "name=".toList ++ (encode name).toList ++ if all then "&all=1".toList else []) := by
    rw [url, ← splitOnce_append noMark]
    congr 1
    cases all <;> simp [historyUrl]
  have path : decode ("/e/" ++ env.text ++ "/secrets") false = some ("/e/" ++ env.text ++ "/secrets") :=
    decode_plain (fun member => (address member).1 rfl) fun given => by cases given
  unfold Req.read
  rw [parts]
  simp only [Option.getD_some, String.ofList_toList, path, parseQuery_history]
  constructor
  · intro secret
    simp only [secret, if_true]
  · intro plain body there short
    simp only [plain, Bool.false_eq_true, if_false, there, if_neg (Nat.not_lt.mpr short)]
    refine ⟨_, rfl, rfl, rfl, ?_⟩
    cases all <;> simp [Req.q]

/-- The versions of a secret of a project's own environment. -/
theorem read_historyUrl_acme : ∃ (env : Formats.Path) (req : Req),
    Req.read ⟨"GET", historyUrl env.text "DB_URL" true, [], some []⟩ = .ok req ∧ req.q "name" = some "DB_URL" := by
  have valid : Formats.validSegment "acme" = true := by
    rw [Formats.validSegment, utf8_eq_data]
    decide
  obtain ⟨req, read, -, name, -⟩ := (read_historyUrl (Formats.Path.project ⟨"acme", valid⟩) "DB_URL" true
    ⟨"GET", historyUrl (Formats.Path.project ⟨"acme", valid⟩).text "DB_URL" true, [], some []⟩ rfl).2 (by decide) [] rfl (Nat.zero_le _)
  exact ⟨_, req, read, name⟩

end GalataVault.Ui
