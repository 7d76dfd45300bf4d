import BackendTemplates.Python.Text

namespace BackendTemplates.Auth
open Python

/-- What the middleware reads of a request. -/
structure Request where
  path : String
  authorization : Option String
  adminCookie : Option String

/-- `MAX_TOKEN_LEN`. -/
def maxTokenLen : Nat := 4096

/-- The group `(.+)$` where a text begins: a line that nothing but one newline follows. -/
def lineGroup (cs : List Char) : Option (List Char) :=
  let line := cs.takeWhile (· != '\n')
  if line ≠ [] ∧ (cs.drop line.length = [] ∨ cs.drop line.length = ['\n']) then some line
  else none

/-- `\s+(.+)$`: as much whitespace as lets the rest match. -/
def afterSpaces (cs : List Char) : Nat → Option (List Char)
  | 0 => none
  | n + 1 => match lineGroup (cs.drop (n + 1)) with
    | some line => some line
    | none => afterSpaces cs n

/-- `_BEARER_RE.match(header)` and its group. -/
def bearerMatch (header : List Char) : Option (List Char) :=
  let cs := header.drop 6
  if (header.take 6).map Char.toLower = ['b', 'e', 'a', 'r', 'e', 'r'] then
    afterSpaces cs (cs.takeWhile isSpace).length
  else none

/-- The token in the header, unless the header or the token is too long. -/
def bearerToken (header : Option String) : Option String := do
  let header ← header
  if maxTokenLen + 16 < header.toList.length then none
  else
    let group ← bearerMatch header.toList
    let token := strip isSpace group
    if token ≠ [] ∧ token.length ≤ maxTokenLen then some (String.ofList token) else none

/-- `_COOKIE_PATH_PREFIXES`. -/
def cookiePathPrefixes : List String := ["/admin", "/api/v1/admin"]

def cookieToken (path : String) (cookie : Option String) : Option String := do
  let cookie ← cookie
  if cookiePathPrefixes.any (startswith path) then
    let token := strip isSpace cookie.toList
    if cookie.toList.length ≤ maxTokenLen ∧ token ≠ [] then some (String.ofList token) else none
  else none

/-- `_extract_token`. -/
def extractToken (r : Request) : Option String :=
  match bearerToken r.authorization with
  | some token => some token
  | none => cookieToken r.path r.adminCookie

/-- A match of `^/(?!admin)`, the exclusion of `_build_csrf`. -/
def csrfExcluded (path : String) : Bool :=
  startswith path "/" && !startswith path "/admin"

/-- The cookie holds a token. -/
def UsableCookie (cookie : Option String) : Prop :=
  ∃ text, cookie = some text ∧ text.toList.length ≤ maxTokenLen ∧ strip isSpace text.toList ≠ []

theorem cookieToken_isSome_iff {path : String} {cookie : Option String} :
    (∃ token, cookieToken path cookie = some token) ↔
      cookiePathPrefixes.any (startswith path) = true ∧ UsableCookie cookie := by
  cases cookie with
  | none => simp [cookieToken, UsableCookie]
  | some text =>
    simp only [cookieToken, UsableCookie, Option.bind_eq_bind, Option.bind_some]
    by_cases hp : cookiePathPrefixes.any (startswith path) = true
    · simp [hp]
    · simp [hp]

/-- Of the paths that take the cookie, those under `/api/v1/admin` are excluded. -/
theorem cookie_path_excluded_iff {path : String}
    (h : cookiePathPrefixes.any (startswith path) = true) :
    csrfExcluded path = true ↔ startswith path "/api/v1/admin" = true := by
  simp only [cookiePathPrefixes, List.any_cons, List.any_nil, Bool.or_false, Bool.or_eq_true] at h
  have hroot (start : String) (hs : start.toList = '/' :: start.toList.tail)
      (hp : startswith path start = true) : startswith path "/" = true := by
    rw [startswith_iff] at hp ⊢
    obtain ⟨rest, hrest⟩ := hp
    rw [← hrest, hs]
    exact ⟨start.toList.tail ++ rest, rfl⟩
  have hapart : startswith path "/admin" = true → startswith path "/api/v1/admin" = true →
      False := by
    intro ha hapi
    rw [startswith_iff] at ha hapi
    obtain ⟨rest, hrest⟩ := ha
    obtain ⟨rest', hrest'⟩ := hapi
    have he := hrest.trans hrest'.symm
    simp at he
  rcases h with hadmin | hapi
  · simp only [csrfExcluded, hadmin, Bool.not_true, Bool.and_false, Bool.false_eq_true, false_iff]
    exact fun hapi => hapart hadmin hapi
  · have hno : startswith path "/admin" = false := by
      by_contra hx
      exact hapart (by simpa using hx) hapi
    simp [csrfExcluded, hroot "/api/v1/admin" rfl hapi, hno, hapi]

/-- A request that the cookie alone authenticates is on a path under CSRF protection, unless
it is under `/api/v1/admin`. -/
theorem cookie_protected_iff (r : Request) :
    (∀ token, extractToken r = some token → bearerToken r.authorization = none →
      csrfExcluded r.path = false) ↔
      ¬ (bearerToken r.authorization = none ∧ UsableCookie r.adminCookie ∧
        startswith r.path "/api/v1/admin" = true) := by
  constructor
  · intro h hx
    obtain ⟨hbearer, hcookie, hpath⟩ := hx
    have hany : cookiePathPrefixes.any (startswith r.path) = true := by
      simp [cookiePathPrefixes, hpath]
    obtain ⟨token, htoken⟩ := cookieToken_isSome_iff.mpr ⟨hany, hcookie⟩
    have hextract : extractToken r = some token := by rw [extractToken, hbearer, htoken]
    have hfree := h token hextract hbearer
    rw [(cookie_path_excluded_iff hany).mpr hpath] at hfree
    cases hfree
  · intro h token hextract hbearer
    rw [extractToken, hbearer] at hextract
    obtain ⟨hany, hcookie⟩ := cookieToken_isSome_iff.mp ⟨token, hextract⟩
    by_contra hx
    have hpath := (cookie_path_excluded_iff hany).mp (by simpa using hx)
    exact h ⟨hbearer, hcookie, hpath⟩

/-- A state-changing request from another site to the admin API, with the cookie. -/
theorem admin_api_takes_cookie : ¬ ∀ r token, extractToken r = some token →
    bearerToken r.authorization = none → csrfExcluded r.path = false := by
  intro hall
  have hx := hall ⟨"/api/v1/admin/logs/", none, some "secret"⟩ "secret" (by decide) (by decide)
  exact absurd hx (by decide)

end BackendTemplates.Auth
