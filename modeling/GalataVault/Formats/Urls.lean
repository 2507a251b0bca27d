import GalataVault.Formats.Checked

/-!
# Server URLs

A client accepts `https://`, or plain `http://` to a loopback address. The host is taken
from an `http://` URL by two splits, and what follows it is only searched for characters
that have no place in a plain URL. So a loopback name in brackets, a bracket that is not
closed, and anything between the host and the next slash pass as well.
-/

namespace GalataVault.Formats

open Proto
open Server (isWhitespace)

/-! ## The code -/

/-- `char::is_control`. -/
def isControl (c : Char) : Bool := c.toNat < 0x20 || (0x7F ≤ c.toNat && c.toNat < 0xA0)

/-- A character that no plain URL holds. -/
def isForbidden (c : Char) : Bool := isWhitespace c || isControl c || ['@', '?', '#', '"'].contains c

/-- Without the slashes at the end. -/
def trimSlashes (url : List Char) : List Char := (url.reverse.dropWhile (· = '/')).reverse

def loopbackHosts : List (List Char) := ["127.0.0.1".toList, "localhost".toList, "::1".toList]

/-- The host of what follows `http://`: in brackets, or up to a slash or a colon. -/
def hostOf (rest : List Char) : List Char :=
  match stripPrefix ['['] rest with
  | some bracketed => bracketed.takeWhile (· ≠ ']')
  | none => rest.takeWhile fun c => c ≠ '/' ∧ c ≠ ':'

def checkPlain (url rest : List Char) : Except String String :=
  if rest = [] ∨ rest.any isForbidden then .error "the server URL must be a plain https://host[:port][/path]"
  else .ok (String.ofList url)

/-- The URL without a trailing slash, or why it is refused. -/
def validateServerUrl (url : String) : Except String String :=
  let url := trimSlashes url.toList
  match stripPrefix "https://".toList url with
  | some rest => checkPlain url rest
  | none =>
    match stripPrefix "http://".toList url with
    | some rest =>
      if hostOf rest ∈ loopbackHosts then checkPlain url rest
      else .error "the server URL must use https:// (plain http:// is allowed only for loopback)"
    | none => .error "the server URL must start with https://"

/-! ## Trailing slashes -/

theorem trimSlashes_trimSlashes (url : List Char) : trimSlashes (trimSlashes url) = trimSlashes url := by
  unfold trimSlashes
  rw [List.reverse_reverse]
  congr 1
  cases ends : url.reverse.dropWhile (· = '/') with
  | nil => rfl
  | cons c rest =>
    have last := List.head?_dropWhile_not (· = '/') url.reverse
    rw [ends] at last
    simp only [List.head?_cons] at last
    rw [List.dropWhile_cons_of_neg (by simpa using last)]

/-- What was taken away are slashes. -/
theorem trimSlashes_append (url : List Char) : ∃ n, url = trimSlashes url ++ List.replicate n '/' := by
  refine ⟨(url.reverse.takeWhile (· = '/')).length, ?_⟩
  have slashes : url.reverse.takeWhile (· = '/') = List.replicate (url.reverse.takeWhile (· = '/')).length '/' := by
    apply List.eq_replicate_of_mem
    intro c taken
    simpa using List.mem_takeWhile_imp taken
  have parts := congrArg List.reverse (List.takeWhile_append_dropWhile (p := (· = '/')) (l := url.reverse))
  rw [List.reverse_append, List.reverse_reverse] at parts
  rw [trimSlashes, ← List.reverse_replicate, ← slashes, parts]

theorem takeWhile_append_slashes (text : List Char) (n : Nat) :
    (text ++ List.replicate n '/').takeWhile (· ≠ '/') = text.takeWhile (· ≠ '/') := by
  induction text with
  | nil =>
    cases n with
    | zero => rfl
    | succ n => simp [List.replicate_succ]
  | cons c rest inductionHypothesis =>
    rw [List.cons_append, List.takeWhile_cons, List.takeWhile_cons, inductionHypothesis]

/-! ## Loopback -/

/-- What stands between `http://` and the next slash. -/
def authority (url : List Char) : List Char := (url.drop "http://".toList.length).takeWhile (· ≠ '/')

/-- A colon and decimal digits. -/
def IsPort (text : List Char) : Prop := ∃ digits : List Char, digits ≠ [] ∧ (∀ d ∈ digits, d.isDigit) ∧ text = ':' :: digits

/-- A loopback host, optionally followed by a port. -/
def LoopbackAuthority (text : List Char) : Prop :=
  ∃ host ∈ ["127.0.0.1".toList, "localhost".toList, "[::1]".toList], ∃ port,
    text = host ++ port ∧ (port = [] ∨ IsPort port)

/-- If the URL is accepted and starts with `http://`, it reaches loopback only. -/
def LoopbackOnly (url : String) : Prop :=
  ∀ result, validateServerUrl url = .ok result → "http://".toList <+: url.toList → LoopbackAuthority (authority url.toList)

/-- An accepted URL's result is accepted again, unchanged. -/
def Stable (url : String) : Prop := ∀ result, validateServerUrl url = .ok result → validateServerUrl result = .ok result

def loopbackNames : List (List Char) := ["127.0.0.1".toList, "localhost".toList]

/-- What may follow `http://` and is taken for loopback without being one of the three hosts
with an optional port. -/
inductive Misread : List Char → Prop
  /-- The bracket is never closed. -/
  | unclosed {host : List Char} : host ∈ loopbackHosts → Misread ('[' :: host)
  /-- A name in brackets. -/
  | bracketed {host more : List Char} : host ∈ loopbackNames → Misread ('[' :: (host ++ ']' :: more))
  /-- Something other than a port after the bracket. -/
  | afterBracket {more : List Char} :
    more.takeWhile (· ≠ '/') ≠ [] → ¬ IsPort (more.takeWhile (· ≠ '/')) → Misread ("[::1]".toList ++ more)
  /-- Something other than digits after the colon. -/
  | port {host more : List Char} :
    host ∈ loopbackNames → ¬ IsPort (':' :: more.takeWhile (· ≠ '/')) → Misread (host ++ ':' :: more)

/-- The URL is plain `http://` without a forbidden character, and what follows is misread. -/
def MisreadUrl (url : String) : Prop :=
  ∃ rest, trimSlashes url.toList = "http://".toList ++ rest ∧ rest.any isForbidden = false ∧ Misread rest

/-- What the two splits take for a loopback host. -/
theorem hostOf_loopback {rest : List Char} (loopback : hostOf rest ∈ loopbackHosts) :
    (∃ host ∈ loopbackHosts, rest = '[' :: host ∨ ∃ more, rest = '[' :: (host ++ ']' :: more)) ∨
      ∃ host ∈ loopbackNames, rest = host ∨ ∃ c more, (c = '/' ∨ c = ':') ∧ rest = host ++ c :: more := by
  unfold hostOf at loopback
  split at loopback
  · next bracketed stripped =>
    rw [stripPrefix_eq_some_iff] at stripped
    subst stripped
    refine Or.inl ⟨_, loopback, ?_⟩
    have parts := List.takeWhile_append_dropWhile (p := (· ≠ ']')) (l := bracketed)
    have stop := List.head?_dropWhile_not (· ≠ ']') bracketed
    cases left : bracketed.dropWhile (· ≠ ']') with
    | nil =>
      rw [left, List.append_nil] at parts
      exact Or.inl (by rw [parts]; rfl)
    | cons c more =>
      rw [left] at parts stop
      obtain rfl : c = ']' := by simpa using stop
      exact Or.inr ⟨more, by rw [parts]; rfl⟩
  · next unbracketed =>
    have parts := List.takeWhile_append_dropWhile (p := fun c => decide (c ≠ '/' ∧ c ≠ ':')) (l := rest)
    have stop := List.head?_dropWhile_not (fun c => decide (c ≠ '/' ∧ c ≠ ':')) rest
    have plain : rest.takeWhile (fun c => decide (c ≠ '/' ∧ c ≠ ':')) ≠ "::1".toList := by
      intro same
      have colon : ':' ∈ rest.takeWhile (fun c => decide (c ≠ '/' ∧ c ≠ ':')) := by
        rw [same]
        simp
      simpa using List.mem_takeWhile_imp colon
    have named : rest.takeWhile (fun c => decide (c ≠ '/' ∧ c ≠ ':')) ∈ loopbackNames := by
      simp only [loopbackHosts, List.mem_cons, List.not_mem_nil, or_false] at loopback
      simp only [loopbackNames, List.mem_cons, List.not_mem_nil, or_false]
      obtain first | second | third := loopback
      · exact Or.inl first
      · exact Or.inr second
      · exact absurd third plain
    refine Or.inr ⟨_, named, ?_⟩
    cases left : rest.dropWhile (fun c => decide (c ≠ '/' ∧ c ≠ ':')) with
    | nil =>
      rw [left, List.append_nil] at parts
      exact Or.inl parts.symm
    | cons c more =>
      rw [left] at parts stop
      have separator : c = '/' ∨ c = ':' := by
        simp only [List.head?_cons, decide_eq_false_iff_not] at stop
        by_contra neither
        simp_all
      exact Or.inr ⟨c, more, separator, parts.symm⟩

theorem hostOf_misread {rest : List Char} (misread : Misread rest) : hostOf rest ∈ loopbackHosts ∧ rest ≠ [] := by
  cases misread with
  | unclosed host =>
    refine ⟨?_, by simp⟩
    simp only [loopbackHosts, List.mem_cons, List.not_mem_nil, or_false] at host
    obtain rfl | rfl | rfl := host <;> simp [hostOf, stripPrefix, loopbackHosts]
  | bracketed host =>
    refine ⟨?_, by simp⟩
    simp only [loopbackNames, List.mem_cons, List.not_mem_nil, or_false] at host
    obtain rfl | rfl := host <;> simp [hostOf, stripPrefix, loopbackHosts]
  | afterBracket =>
    refine ⟨?_, by simp⟩
    simp [hostOf, stripPrefix, loopbackHosts]
  | port host =>
    refine ⟨?_, by simp⟩
    simp only [loopbackNames, List.mem_cons, List.not_mem_nil, or_false] at host
    obtain rfl | rfl := host <;> simp [hostOf, stripPrefix, loopbackHosts]

/-- A misread authority is no loopback host with an optional port. -/
theorem not_loopback_of_misread {rest : List Char} (misread : Misread rest) :
    ¬ LoopbackAuthority (rest.takeWhile (· ≠ '/')) := by
  rintro ⟨host, among, port, same, optional⟩
  simp only [List.mem_cons, List.not_mem_nil, or_false] at among
  cases misread with
  | unclosed named =>
    simp only [loopbackHosts, List.mem_cons, List.not_mem_nil, or_false] at named
    obtain rfl | rfl | rfl := named <;> obtain rfl | rfl | rfl := among <;> simp at same
  | bracketed named =>
    simp only [loopbackNames, List.mem_cons, List.not_mem_nil, or_false] at named
    obtain rfl | rfl := named <;> obtain rfl | rfl | rfl := among <;> simp at same
  | afterBracket some other =>
    obtain rfl | rfl | rfl := among <;> simp at same
    subst same
    exact optional.elim (by simpa using some) (by simpa using other)
  | port named other =>
    simp only [loopbackNames, List.mem_cons, List.not_mem_nil, or_false] at named
    obtain rfl | rfl := named <;> obtain rfl | rfl | rfl := among <;> simp at same
    all_goals
      subst same
      exact optional.elim (by simp) (by simpa using other)

/-! ## Acceptance -/

theorem stripPrefix_append (start rest : List Char) : stripPrefix start (start ++ rest) = some rest :=
  stripPrefix_eq_some_iff.mpr rfl

theorem not_https (rest : List Char) : stripPrefix "https://".toList ("http://".toList ++ rest) = none := by
  cases stripped : stripPrefix "https://".toList ("http://".toList ++ rest) with
  | none => rfl
  | some more =>
    have same := stripPrefix_eq_some_iff.mp stripped
    simp at same

/-- When a plain `http://` URL is accepted. -/
theorem validateServerUrl_http {url : String} {rest : List Char}
    (plain : trimSlashes url.toList = "http://".toList ++ rest) :
    validateServerUrl url =
      if hostOf rest ∈ loopbackHosts then checkPlain ("http://".toList ++ rest) rest
      else .error "the server URL must use https:// (plain http:// is allowed only for loopback)" := by
  unfold validateServerUrl
  dsimp only
  rw [plain, not_https, stripPrefix_append]

theorem accepted_of_misread {url : String} (misread : MisreadUrl url) : ∃ result, validateServerUrl url = .ok result := by
  obtain ⟨rest, plain, allowed, kind⟩ := misread
  obtain ⟨loopback, some⟩ := hostOf_misread kind
  refine ⟨String.ofList ("http://".toList ++ rest), ?_⟩
  rw [validateServerUrl_http plain, if_pos loopback, checkPlain, if_neg (by simp [some, allowed])]

/-- The slashes at the end are no part of the authority. -/
theorem authority_of_trimmed {url rest : List Char} (plain : trimSlashes url = "http://".toList ++ rest) :
    "http://".toList <+: url ∧ authority url = rest.takeWhile (· ≠ '/') := by
  obtain ⟨n, whole⟩ := trimSlashes_append url
  rw [plain, List.append_assoc] at whole
  refine ⟨⟨_, whole.symm⟩, ?_⟩
  rw [authority, whole, List.drop_left, takeWhile_append_slashes]

/-- What an accepted `http://` URL is, less the slashes at its end. -/
theorem trimmed_of_accepted {url result : String} (accepted : validateServerUrl url = .ok result)
    (starts : "http://".toList <+: url.toList) :
    ∃ rest, trimSlashes url.toList = "http://".toList ++ rest ∧ hostOf rest ∈ loopbackHosts ∧
      rest.any isForbidden = false := by
  obtain ⟨more, whole⟩ := starts
  obtain ⟨n, slashes⟩ := trimSlashes_append url.toList
  unfold validateServerUrl at accepted
  dsimp only at accepted
  split at accepted
  · next rest stripped =>
    rw [stripPrefix_eq_some_iff.mp stripped, ← whole] at slashes
    simp at slashes
  · split at accepted
    · next rest stripped =>
      split at accepted
      · next loopback =>
        unfold checkPlain at accepted
        split at accepted
        · cases accepted
        · next allowed =>
          exact ⟨rest, stripPrefix_eq_some_iff.mp stripped, loopback, by simpa using (not_or.mp allowed).2⟩
      · cases accepted
    · cases accepted

/-- Whatever is not misread reaches loopback only. -/
theorem loopback_of_not_misread {rest : List Char} (loopback : hostOf rest ∈ loopbackHosts) (read : ¬ Misread rest) :
    LoopbackAuthority (rest.takeWhile (· ≠ '/')) := by
  have named : ∀ {host : List Char}, host ∈ loopbackNames → host ∈ ["127.0.0.1".toList, "localhost".toList, "[::1]".toList] ∧
      ∀ more, (host ++ more).takeWhile (· ≠ '/') = host ++ more.takeWhile (· ≠ '/') := by
    intro host among
    simp only [loopbackNames, List.mem_cons, List.not_mem_nil, or_false] at among
    obtain rfl | rfl := among <;> simp
  obtain ⟨host, among, rfl | ⟨more, rfl⟩⟩ | ⟨host, among, rfl | ⟨c, more, separator, rfl⟩⟩ := hostOf_loopback loopback
  · exact absurd (Misread.unclosed among) read
  · simp only [loopbackHosts, List.mem_cons, List.not_mem_nil, or_false] at among
    obtain rfl | rfl | rfl := among
    · exact absurd (Misread.bracketed (by simp [loopbackNames])) read
    · exact absurd (Misread.bracketed (by simp [loopbackNames])) read
    · refine ⟨"[::1]".toList, by simp, more.takeWhile (· ≠ '/'), by simp, ?_⟩
      by_contra neither
      rw [not_or] at neither
      exact read (by simpa using Misread.afterBracket neither.1 neither.2)
  · refine ⟨rest, (named among).1, [], ?_, Or.inl rfl⟩
    simpa using (named among).2 []
  · refine ⟨host, (named among).1, (c :: more).takeWhile (· ≠ '/'), (named among).2 _, ?_⟩
    obtain rfl | rfl := separator
    · exact Or.inl (by simp)
    · rw [List.takeWhile_cons_of_pos (by decide)]
      by_contra neither
      rw [not_or] at neither
      exact read (Misread.port among neither.2)

theorem validateServerUrl_stable (url : String) : Stable url := by
  intro result accepted
  have kept : result = String.ofList (trimSlashes url.toList) := by
    unfold validateServerUrl checkPlain at accepted
    dsimp only at accepted
    split at accepted
    · split at accepted
      · cases accepted
      · exact (Except.ok.inj accepted).symm
    · split at accepted
      · split at accepted
        · split at accepted
          · cases accepted
          · exact (Except.ok.inj accepted).symm
        · cases accepted
      · cases accepted
  have again : trimSlashes result.toList = trimSlashes url.toList := by
    rw [kept, String.toList_ofList, trimSlashes_trimSlashes]
  unfold validateServerUrl at accepted ⊢
  rw [again]
  exact accepted

/-- **Plain http reaches only loopback, except where it is misread.** A URL keeps to loopback,
and its result is accepted again, exactly if what follows `http://` is not misread. -/
theorem loopback_only_iff (url : String) : LoopbackOnly url ∧ Stable url ↔ ¬ MisreadUrl url := by
  constructor
  · rintro ⟨only, _⟩ misread
    obtain ⟨result, accepted⟩ := accepted_of_misread misread
    obtain ⟨rest, plain, _, kind⟩ := misread
    obtain ⟨starts, same⟩ := authority_of_trimmed plain
    have loopback := only result accepted starts
    rw [same] at loopback
    exact not_loopback_of_misread kind loopback
  · intro read
    refine ⟨fun result accepted starts => ?_, validateServerUrl_stable url⟩
    obtain ⟨rest, plain, loopback, allowed⟩ := trimmed_of_accepted accepted starts
    rw [(authority_of_trimmed plain).2]
    exact loopback_of_not_misread loopback fun kind => read ⟨rest, plain, allowed, kind⟩

/-- A name after the bracket of the loopback address passes. -/
theorem http_beyond_loopback : ¬ LoopbackOnly "http://[::1].evil.example" := by
  have misread : MisreadUrl "http://[::1].evil.example" := by
    refine ⟨"[::1]".toList ++ ".evil.example".toList, by simp [trimSlashes], by decide +kernel, ?_⟩
    refine Misread.afterBracket (by simp) ?_
    rintro ⟨digits, _, _, same⟩
    simp at same
  exact fun only => (loopback_only_iff _).mp ⟨only, validateServerUrl_stable _⟩ misread

end GalataVault.Formats
