import Mathlib.Data.List.DropRight
import Tesseract.Core.Assoc
import Tesseract.L3Store.Topological

/-!
# Who may call the API

Model of `tesseract-api/src/auth.rs`. A provider makes claims, or an error, of the headers of
a request. The environment variables are arguments, and what the `jsonwebtoken` crate makes
of a token is the parameter `decode`.

* `lookup_fromEnv`: the role of a key is that of the last entry with the key.
* `fromEnv_keysText`: a table of keys, written as the variable has it, is read back.
* `apiKey_authenticate`: with it the keys of the table are let in with their roles, and no
  other header is.
* `tryAll_eq`: of several providers the first that succeeds decides, or else the last one.
* `both_authenticate`: whom a server with both kinds of provider lets in.
-/
namespace Tesseract.L7

open Assoc L3 L3.Serde

/-! ## Text -/

/-- The characters with the property `White_Space`. -/
def isWhiteSpace (c : Char) : Bool :=
  let n := c.toNat
  (9 ≤ n && n ≤ 13) || n == 0x20 || n == 0x85 || n == 0xA0 || n == 0x1680 ||
    (0x2000 ≤ n && n ≤ 0x200A) || n == 0x2028 || n == 0x2029 || n == 0x202F || n == 0x205F ||
    n == 0x3000

/-- `str::trim` -/
def trim (cs : List Char) : List Char := (cs.dropWhile isWhiteSpace).rdropWhile isWhiteSpace

/-- `str::split_once` -/
def splitOnce (sep : Char) (cs : List Char) : Option (List Char × List Char) :=
  match cs.dropWhile (· ≠ sep) with
  | [] => none
  | _ :: rest => some (cs.takeWhile (· ≠ sep), rest)

/-! ## Headers -/

/-- The headers in order, with their names in lower case. -/
abbrev HeaderMap := List (String × List UInt8)

/-- `HeaderValue::to_str`: visible ASCII and tabs. -/
def toStr (value : List UInt8) : Option String :=
  if value.all fun b => b = 9 || (32 ≤ b && b < 127) then
    some (String.ofList (value.map fun b => Char.ofNat b.toNat))
  else none

/-- `headers.get(name).and_then(|v| v.to_str().ok())`: the first value of the name. -/
def headerText (headers : HeaderMap) (name : String) : Option String :=
  headers.lookup name >>= toStr

/-! ## Providers -/

/-- mirrors tesseract-api/src/auth.rs:18-21 -/
structure Claims where
  sub : String
  role : String
  deriving DecidableEq, Repr

/-- mirrors tesseract-api/src/auth.rs:25-29 -/
inductive AuthError where
  | missingCredentials
  | invalidCredentials (msg : String)
  | expiredToken
  deriving DecidableEq, Repr

/-- mirrors tesseract-api/src/auth.rs:31-39 -/
def AuthError.text : AuthError → String
  | .missingCredentials => "missing credentials"
  | .invalidCredentials msg => s!"invalid credentials: {msg}"
  | .expiredToken => "token expired"

/-- mirrors tesseract-api/src/auth.rs:42-44 -/
abbrev AuthProvider := HeaderMap → Except AuthError Claims

namespace ApiKeyAuth

/-- mirrors tesseract-api/src/auth.rs:68-76 -/
def parseEntry (entry : List Char) : Option (String × Claims) :=
  (splitOnce ':' entry).map fun p =>
    let key := String.ofList (trim p.1)
    (key, ⟨key, String.ofList (trim p.2)⟩)

/-- mirrors tesseract-api/src/auth.rs:67-78 -/
def addEntry (keys : Map String Claims) (entry : List Char) : Map String Claims :=
  match parseEntry entry with
  | some (key, claims) => keys.insert key claims
  | none => keys

/-- `csv` is the variable, and empty if there is none.
mirrors tesseract-api/src/auth.rs:64-79 -/
def fromEnv (csv : String) : Map String Claims := (csv.toList.splitOn ',').foldl addEntry ∅

/-- mirrors tesseract-api/src/auth.rs:83-92 -/
def authenticate (keys : Map String Claims) : AuthProvider := fun headers =>
  match headerText headers "x-api-key" with
  | none => .error .missingCredentials
  | some key =>
    match keys.lookup key with
    | some claims => .ok claims
    | none => .error (.invalidCredentials "invalid API key")

end ApiKeyAuth

namespace JwtAuth

variable {α : Type} [F64 α]

/-- `claims[name].as_str().unwrap_or(default)` -/
def claimText (claims : Value α) (name default : String) : String :=
  match Json.get claims name with
  | some (.str s) => s
  | _ => default

/-- `strip_prefix("Bearer ")` -/
def bearer (value : String) : Option String :=
  if "Bearer ".toList <+: value.toList then some (String.ofList (value.toList.drop 7)) else none

/-- mirrors tesseract-api/src/auth.rs:119-143 -/
def authenticate (decode : String → String → Except String (Value α)) (secret : String) :
    AuthProvider := fun headers =>
  match headerText headers "authorization" >>= bearer with
  | none => .error .missingCredentials
  | some token =>
    match decode token secret with
    | .error e => .error (.invalidCredentials e)
    | .ok claims => .ok ⟨claimText claims "sub" "unknown", claimText claims "role" "user"⟩

end JwtAuth

namespace MultiAuth

/-- mirrors tesseract-api/src/auth.rs:157-163 -/
def tryAll (headers : HeaderMap) : List AuthProvider → AuthError → Except AuthError Claims
  | [], lastErr => .error lastErr
  | provider :: rest, _ =>
    match provider headers with
    | .ok claims => .ok claims
    | .error e => tryAll headers rest e

/-- mirrors tesseract-api/src/auth.rs:156-165 -/
def authenticate (providers : List AuthProvider) : AuthProvider := fun headers =>
  tryAll headers providers .missingCredentials

end MultiAuth

/-- The variables `TESSERACT_AUTH_MODE`, `TESSERACT_API_KEYS` and `TESSERACT_JWT_SECRET`. -/
structure AuthEnv where
  mode : Option String
  apiKeys : Option String
  jwtSecret : Option String
  deriving DecidableEq, Repr

/-- mirrors tesseract-api/src/auth.rs:111-115,175-188 -/
def createAuthProvider {α : Type} [F64 α]
    (decode : String → String → Except String (Value α)) (env : AuthEnv) : Option AuthProvider :=
  let apiKey := ApiKeyAuth.authenticate (ApiKeyAuth.fromEnv (env.apiKeys.getD ""))
  let jwt := JwtAuth.authenticate decode (env.jwtSecret.getD "dev-secret-do-not-use-in-prod")
  match env.mode with
  | some "api-key" => some apiKey
  | some "jwt" => some jwt
  | some "both" => some (MultiAuth.authenticate [apiKey, jwt])
  | _ => none

/-! ## Several providers -/

namespace MultiAuth

/-- The first success, or else the last failure. -/
theorem tryAll_eq (headers : HeaderMap) (providers : List AuthProvider) (e : AuthError) :
    tryAll headers providers e =
      ((providers.map fun p => p headers).find? Except.isOk).getD
        ((providers.map fun p => p headers).getLast?.getD (.error e)) := by
  induction providers generalizing e with
  | nil => rfl
  | cons provider rest ih =>
    rw [tryAll, List.map_cons, List.find?_cons, List.getLast?_cons, Option.getD_some]
    cases hp : provider headers with
    | ok claims => rfl
    | error e' => exact ih e'

end MultiAuth

/-! ## The table of API keys -/

namespace ApiKeyAuth

theorem lookup_addEntry (keys : Map String Claims) (entry : List Char) (key : String) :
    (addEntry keys entry).lookup key =
      ((parseEntry entry).bind fun p => if p.1 = key then some p.2 else none).or
        (keys.lookup key) := by
  unfold addEntry
  cases parseEntry entry with
  | none => rfl
  | some p =>
    obtain ⟨k, claims⟩ := p
    simp only [lookup_insert_eq, Option.bind_some]
    by_cases hk : key = k
    · simp [hk]
    · simp [hk, Ne.symm hk]

/-- The last entry with the key counts. -/
theorem lookup_foldl_addEntry (entries : List (List Char)) (keys : Map String Claims)
    (key : String) : (entries.foldl addEntry keys).lookup key =
      ((entries.filterMap parseEntry).reverse.lookup key).or (keys.lookup key) := by
  induction entries generalizing keys with
  | nil => rfl
  | cons entry entries ih =>
    rw [List.foldl_cons, ih, lookup_addEntry]
    cases hentry : parseEntry entry with
    | none => simp [List.filterMap_cons_none hentry]
    | some p =>
      obtain ⟨k, claims⟩ := p
      rw [List.filterMap_cons_some hentry, List.reverse_cons, List.lookup_append, Option.or_assoc]
      congr 2
      by_cases hk : key = k
      · simp [hk]
      · simp [Ne.symm hk, List.lookup_cons, beq_eq_false_iff_ne.mpr hk]

theorem lookup_fromEnv (csv key : String) : (fromEnv csv).lookup key =
    ((csv.toList.splitOn ',').filterMap parseEntry).reverse.lookup key := by
  rw [fromEnv, lookup_foldl_addEntry, AList.lookup_empty, Option.or_none]

/-- What the variable holds for the keys and roles `table`. -/
def keysText (table : List (String × String)) : String :=
  String.ofList ([','].intercalate (table.map fun p => p.1.toList ++ ':' :: p.2.toList))

/-- No separators inside, and no white space around. -/
structure Clean (p : String × String) : Prop where
  noComma : ',' ∉ p.1.toList ∧ ',' ∉ p.2.toList
  noColon : ':' ∉ p.1.toList
  trimmed : trim p.1.toList = p.1.toList ∧ trim p.2.toList = p.2.toList

theorem splitOnce_append {sep : Char} {left : List Char} (h : sep ∉ left) (right : List Char) :
    splitOnce sep (left ++ sep :: right) = some (left, right) := by
  have hleft : ∀ c ∈ left, decide (c ≠ sep) = true := fun c hc =>
    decide_eq_true fun heq => h (heq ▸ hc)
  rw [splitOnce, List.dropWhile_append_of_pos hleft, List.takeWhile_append_of_pos hleft]
  simp

theorem parseEntry_clean {p : String × String} (h : Clean p) :
    parseEntry (p.1.toList ++ ':' :: p.2.toList) = some (p.1, ⟨p.1, p.2⟩) := by
  simp [parseEntry, splitOnce_append h.noColon, h.trimmed.1, h.trimmed.2]

/-- A table in the variable is read back; of entries with one key the last one counts. -/
theorem fromEnv_keysText {table : List (String × String)} (h : ∀ p ∈ table, Clean p)
    (key : String) : (fromEnv (keysText table)).lookup key =
      (table.reverse.lookup key).map fun role => ⟨key, role⟩ := by
  have hentries : ((keysText table).toList.splitOn ',').filterMap parseEntry =
      table.map fun p => (p.1, ⟨p.1, p.2⟩) := by
    rw [keysText, String.toList_ofList]
    cases table with
    | nil => rfl
    | cons p table =>
      rw [List.splitOn_intercalate, List.filterMap_map]
      · rw [← List.filterMap_eq_map]
        exact List.filterMap_congr fun q hq => parseEntry_clean (h q hq)
      · intro l hl
        obtain ⟨q, hq, rfl⟩ := List.mem_map.mp hl
        simp [(h q hq).noComma.1, (h q hq).noComma.2]
      · simp
  rw [lookup_fromEnv, hentries, ← List.map_reverse]
  induction table.reverse with
  | nil => rfl
  | cons p rest ih =>
    rw [List.map_cons, List.lookup_cons, List.lookup_cons, ih]
    cases hk : key == p.1 with
    | true => simp [eq_of_beq hk]
    | false => rfl

/-- What the table knows of the key in the headers. -/
def keyClaims (table : List (String × String)) (headers : HeaderMap) : Option Claims := do
  let key ← headerText headers "x-api-key"
  let role ← table.reverse.lookup key
  some ⟨key, role⟩

/-- The keys of the table are let in with their roles, and nothing else is. -/
theorem apiKey_authenticate {table : List (String × String)} (h : ∀ p ∈ table, Clean p)
    (headers : HeaderMap) : ∃ e, authenticate (fromEnv (keysText table)) headers =
      match keyClaims table headers with
      | some claims => .ok claims
      | none => .error e := by
  unfold authenticate keyClaims
  cases headerText headers "x-api-key" with
  | none => exact ⟨_, rfl⟩
  | some key =>
    refine ⟨.invalidCredentials "invalid API key", ?_⟩
    simp only [fromEnv_keysText h, Option.bind_eq_bind, Option.bind_some]
    cases table.reverse.lookup key <;> rfl

end ApiKeyAuth

/-! ## Both providers -/

/-- With both providers a key of the table is let in with its last role, whatever the token
says. Anyone else is judged by the token alone, the error included. -/
theorem both_authenticate {α : Type} [F64 α]
    (decode : String → String → Except String (Value α)) {table : List (String × String)}
    (h : ∀ p ∈ table, ApiKeyAuth.Clean p) (secret : Option String) :
    ∃ provider, createAuthProvider decode
      ⟨some "both", some (ApiKeyAuth.keysText table), secret⟩ = some provider ∧
      ∀ headers, provider headers = match ApiKeyAuth.keyClaims table headers with
        | some claims => .ok claims
        | none =>
          JwtAuth.authenticate decode (secret.getD "dev-secret-do-not-use-in-prod") headers := by
  refine ⟨_, rfl, fun headers => ?_⟩
  obtain ⟨e, hkey⟩ := ApiKeyAuth.apiKey_authenticate h headers
  rw [MultiAuth.authenticate, MultiAuth.tryAll_eq, Option.getD_some, List.map_cons,
    List.find?_cons, hkey]
  cases ApiKeyAuth.keyClaims table headers with
  | some claims => rfl
  | none =>
    cases hjwt : JwtAuth.authenticate decode
      (secret.getD "dev-secret-do-not-use-in-prod") headers <;>
      simp [hjwt, Except.isOk, Except.toBool]

theorem clean_twice : ∀ p ∈ [("k", "reader"), ("k", "admin")], ApiKeyAuth.Clean p := by
  have hclean : ∀ p ∈ [("k", "reader"), ("k", "admin")],
      (',' ∉ p.1.toList ∧ ',' ∉ p.2.toList) ∧ ':' ∉ p.1.toList ∧
        trim p.1.toList = p.1.toList ∧ trim p.2.toList = p.2.toList := by
    decide
  intro p hp
  obtain ⟨hcomma, hcolon, htrim⟩ := hclean p hp
  exact ⟨hcomma, hcolon, htrim⟩

/-- A key that is in the table twice. -/
theorem both_authenticate_twice : ∃ provider, createAuthProvider
      (fun _ _ => (.error "InvalidToken" : Except String (Value Lit)))
      ⟨some "both", some (ApiKeyAuth.keysText [("k", "reader"), ("k", "admin")]), none⟩ =
        some provider ∧
      ∀ headers, provider headers =
        match ApiKeyAuth.keyClaims [("k", "reader"), ("k", "admin")] headers with
        | some claims => .ok claims
        | none => JwtAuth.authenticate
          (fun _ _ => (.error "InvalidToken" : Except String (Value Lit)))
          "dev-secret-do-not-use-in-prod" headers :=
  both_authenticate _ clean_twice none

end Tesseract.L7
