import Tesseract.Core.ErrorText
import Tesseract.L4Engine.Completeness
import Tesseract.L5Vql.Executor
import Tesseract.L7Api.Auth
import Tesseract.L7Api.RateLimiter

/-!
# The HTTP server

Model of `tesseract-api/src/http.rs`: a request passes the rate limiter, then the routes,
where the protected ones ask the authentication provider, and then a handler. What `axum`
decides of a request (`Axum`) and the standard library of an address are parameters; the texts
of the documentation and the timings of a query are left out. The table of routes is taken as
it reads: it has `/openapi.json` twice, once of its own and once with the documentation, which
`axum` does not accept when it merges the two.

* `route_effect`: what a request does to the storage, and when it is refused.
* `serve_step`: the same behind the limiter, for requests that come one after the other.
* `addresses_unlimited`: a client that names another address each time is never turned away.
-/
namespace Tesseract.L7

open Assoc L3 L3.Serde L4 L5.Vql

variable {ι α β : Type} [F64 α]

/-! ## Requests and replies -/

/-- mirrors tesseract-api/src/http.rs:45-50 -/
structure QueryRequest where
  vql : String
  userId : Option String
  deriving DecidableEq, Repr

/-- mirrors tesseract-api/src/http.rs:54-60 -/
structure QueryResponse (α β : Type) [F64 α] where
  success : Bool
  results : List (ScoredResult α β)
  total : Nat
  error : Option String

/-- mirrors tesseract-api/src/http.rs:73-77 -/
abbrev InsertRequest (α : Type) [F64 α] := VectorBody α

/-- mirrors tesseract-api/src/http.rs:81-85 -/
abbrev InsertResponse := InsertReport

/-- mirrors tesseract-api/src/http.rs:89-92 -/
structure HealthResponse where
  status : String
  version : String
  deriving DecidableEq, Repr

/-- mirrors tesseract-api/src/http.rs:96-99 -/
structure ReadinessResponse where
  status : String
  checks : List (String × Bool)
  deriving DecidableEq, Repr

structure Request (ι : Type) where
  /-- the clock when the limiter reads it -/
  now : Nat
  /-- the address in `ConnectInfo`, if the server was started with it -/
  connectInfo : Option ι
  method : String
  path : String
  headers : HeaderMap
  body : List UInt8

inductive Body (α β : Type) [F64 α] where
  /-- `{"error": msg}` -/
  | error (msg : String)
  | health (resp : HealthResponse)
  | readiness (resp : ReadinessResponse)
  | query (resp : QueryResponse α β)
  | insert (resp : InsertResponse)
  | text (body : String)
  /-- what `axum` and the pages of the documentation answer with -/
  | page

structure Reply (α β : Type) [F64 α] where
  status : Nat
  body : Body α β
  retryAfter : Option String := none

/-- The reply is neither the limiter's nor the provider's. -/
def Reply.Neutral (reply : Reply α β) : Prop := reply.status ≠ 401 ∧ reply.status ≠ 429

/-- What `axum` decides, and what is known of it: a route for `POST` is for nothing else, and
its extractor `Json` wants a `Content-Type` that says so. -/
structure Axum (ι α β : Type) [F64 α] where
  /-- whether a route with a handler for the first method takes the second -/
  takes : String → String → Bool
  methodNotAllowed : Reply α β
  /-- whether the `Content-Type` says JSON -/
  isJson : HeaderMap → Bool
  readQuery : HeaderMap → List UInt8 → Except (Reply α β) QueryRequest
  readInsert : HeaderMap → List UInt8 → Except (Reply α β) (InsertRequest α)
  /-- the pages of the documentation, and every path that no route has, which may be told so
  behind the authentication -/
  elsewhere : Request ι → Reply α β
  takes_post : ∀ method, takes "POST" method = true ↔ method = "POST"
  methodNotAllowed_neutral : methodNotAllowed.Neutral
  readQuery_neutral : ∀ headers body reply,
    readQuery headers body = .error reply → reply.Neutral
  readInsert_neutral : ∀ headers body reply,
    readInsert headers body = .error reply → reply.Neutral
  readInsert_json : ∀ headers body req, readInsert headers body = .ok req → isJson headers = true
  elsewhere_unlimited : ∀ req, (elsewhere req).status ≠ 429

/-- `storage` is all of the state of the handlers; `executor` has the rest of a query.
mirrors tesseract-api/src/http.rs:34-37 -/
structure Server (ι α β : Type) [F64 α] where
  storage : Engine α β
  limiter : Option (RateLimiter ι)

/-- What stays the same while the server runs, and the code from elsewhere. `executor` is
`Backend.execute` over a storage, within the time of a query. -/
structure Setup (ι α β : Type) [F64 α] [F32 β] where
  deps : Deps α
  auth : Option AuthProvider
  executor : Engine α β → String → Option String → Option (Result (List (ScoredResult α β)))
  localhost : ι
  /-- `str::parse::<IpAddr>` -/
  parseIp : String → Option ι
  axum : Axum ι α β

/-! ## Handlers -/

/-- mirrors tesseract-api/src/http.rs:232-234 -/
def livenessHandler : Reply α β := ⟨200, .health ⟨"pass", "0.1.0"⟩, none⟩

/-- mirrors tesseract-storage/src/engine.rs:583-592 -/
def isReady (s : Engine α β) : List (String × Bool) :=
  [("wal", true), ("index", s.index.isSome), ("hot_buffer", s.hotBuffer.isSome)]

/-- mirrors tesseract-api/src/http.rs:246-253 -/
def readinessHandler (s : Engine α β) : Reply α β :=
  let checks := isReady s
  let allOk := checks.all Prod.snd
  ⟨if allOk then 200 else 503, .readiness ⟨if allOk then "pass" else "fail", checks⟩, none⟩

/-- mirrors tesseract-api/src/http.rs:267-277 -/
def metricsHandler : Reply α β :=
  ⟨200, .text ("# Tesseract Metrics (stub)\n" ++
    "# Enable the `otel` feature for full OpenTelemetry/Prometheus export.\n" ++
    "tesseract_requests_total 0\ntesseract_queries_total 0\n" ++
    "tesseract_inserts_total 0\ntesseract_errors_total 0\n"), none⟩

variable [F32 β] (S : Setup ι α β)

/-- mirrors tesseract-api/src/http.rs:293-324 -/
def queryHandler (s : Engine α β) (req : QueryRequest) : Option (Reply α β) :=
  (S.executor s req.vql req.userId).map fun r =>
    match r with
    | .ok results => ⟨200, .query ⟨true, results, results.length, none⟩, none⟩
    | .error e => ⟨400, .query ⟨false, [], 0, some e.text⟩, none⟩

/-- mirrors tesseract-api/src/http.rs:341-345 -/
def storageCall (env : Env) (req : InsertRequest α) : Call α := req.call env

/-- The answer of the authentication middleware, if it does not let the request pass.
mirrors tesseract-api/src/http.rs:106-130 -/
def authMiddleware (auth : AuthProvider) (req : Request ι) : Option (Reply α β) :=
  if "/health".toList <+: req.path.toList ∨ req.path = "/metrics" then none
  else match auth req.headers with
    | .ok _ => none
    | .error .missingCredentials => some ⟨401, .error "missing credentials", none⟩
    | .error (.invalidCredentials _) => some ⟨401, .error "invalid credentials", none⟩
    | .error .expiredToken => some ⟨401, .error "token expired", none⟩

/-- Whoever the provider accepts; without a provider, everyone. -/
def authenticated (req : Request ι) : Bool :=
  match S.auth with
  | none => true
  | some auth => (auth req.headers).isOk

/-- The paths that need credentials. -/
def Protected (path : String) : Prop := path = "/query" ∨ path = "/insert"

/-- The insert that a request comes to, if the limiter lets it pass. -/
def insertOf (req : Request ι) : Option (InsertRequest α) :=
  if req.path = "/insert" ∧ req.method = "POST" ∧ authenticated S req ∧
      S.axum.isJson req.headers then
    (S.axum.readInsert req.headers req.body).toOption
  else none

/-! ## Routes -/

/-- A route with a handler for `method`. -/
def only (method : String) (req : Request ι) (handler : Option (Engine α β × Reply α β))
    (s : Engine α β) : Option (Engine α β × Reply α β) :=
  if S.axum.takes method req.method then handler else some (s, S.axum.methodNotAllowed)

/-- Behind the authentication middleware, if there is a provider. The middleware goes first
whatever the method. -/
def guarded (req : Request ι) (s : Engine α β) (handler : Option (Engine α β × Reply α β)) :
    Option (Engine α β × Reply α β) :=
  match S.auth.bind fun auth => authMiddleware auth req with
  | some refusal => some (s, refusal)
  | none => handler

/-- A handler gets what has been extracted from the request for it. -/
def extracted {σ : Type} (s : Engine α β) (body : Except (Reply α β) σ)
    (handler : σ → Option (Engine α β × Reply α β)) : Option (Engine α β × Reply α β) :=
  match body with
  | .error refusal => some (s, refusal)
  | .ok req => handler req

/-! ## What the routes do -/

/-- The storage is as before, and the reply is neither the limiter's nor the provider's. -/
def Plain (s : Engine α β) (out : Option (Engine α β × Reply α β)) : Prop :=
  ∀ s' reply, out = some (s', reply) → s' = s ∧ reply.Neutral

variable {S} {s s' : Engine α β} {req : Request ι} {reply : Reply α β}

omit [F32 β] in
theorem plain_some (h : reply.Neutral) : Plain s (some (s, reply)) := by
  intro s' reply' heq
  obtain ⟨rfl, rfl⟩ := Prod.mk.inj (Option.some.inj heq)
  exact ⟨rfl, h⟩

theorem only_plain {method : String} {handler : Option (Engine α β × Reply α β)}
    (h : Plain s handler) : Plain s (only S method req handler s) := by
  unfold only
  split
  · exact h
  · exact plain_some S.axum.methodNotAllowed_neutral

theorem query_plain : Plain s (extracted s (S.axum.readQuery req.headers req.body) fun q =>
    (queryHandler S s q).map fun r => (s, r)) := by
  cases hbody : S.axum.readQuery req.headers req.body with
  | error refusal => exact plain_some (S.axum.readQuery_neutral _ _ _ hbody)
  | ok q =>
    intro s' reply h
    obtain ⟨r, hr, heq⟩ := Option.map_eq_some_iff.mp h
    obtain ⟨rfl, rfl⟩ := Prod.mk.inj heq
    obtain ⟨result, -, rfl⟩ := Option.map_eq_some_iff.mp hr
    cases result <;> simp [Reply.Neutral]

omit [F32 β] in
theorem authMiddleware_status {auth : AuthProvider}
    (h : authMiddleware auth req = some reply) : reply.status = 401 := by
  unfold authMiddleware at h
  split at h
  · cases h
  · split at h <;> cases h <;> rfl

/-- The middleware refuses whoever is not authenticated, but for the paths of the probes. -/
theorem middleware_none_iff :
    (S.auth.bind fun auth => authMiddleware (α := α) (β := β) auth req) = none ↔
      ("/health".toList <+: req.path.toList ∨ req.path = "/metrics") ∨
        authenticated S req = true := by
  unfold authenticated
  cases S.auth with
  | none => simp
  | some auth =>
    simp only [Option.bind_some, authMiddleware]
    by_cases hprobe : "/health".toList <+: req.path.toList ∨ req.path = "/metrics"
    · simp only [hprobe, if_true, true_or]
    · simp only [hprobe, if_false, false_or]
      cases auth req.headers with
      | ok claims => simp [Except.isOk, Except.toBool]
      | error e => cases e <;> simp [Except.isOk, Except.toBool]

theorem not_probe {path : String} (h : Protected path) :
    ¬ ("/health".toList <+: path.toList ∨ path = "/metrics") := by
  rcases h with rfl | rfl
  · decide
  · decide

theorem insertOf_path (h : req.path ≠ "/insert") : insertOf S req = none :=
  if_neg fun hc => h hc.1

theorem guarded_cases (hpath : Protected req.path)
    (handler : Option (Engine α β × Reply α β)) :
    authenticated S req = true ∧ guarded S req s handler = handler ∨
      authenticated S req = false ∧
        ∃ reply, reply.status = 401 ∧ guarded S req s handler = some (s, reply) := by
  have hiff : (S.auth.bind fun auth => authMiddleware (α := α) (β := β) auth req) = none ↔
      authenticated S req = true := by
    rw [middleware_none_iff, or_iff_right (not_probe hpath)]
  unfold guarded
  cases hm : S.auth.bind fun auth => authMiddleware (α := α) (β := β) auth req with
  | none => exact .inl ⟨hiff.mp hm, rfl⟩
  | some refusal =>
    rw [hm] at hiff
    obtain ⟨auth, -, hauth⟩ := Option.bind_eq_some_iff.mp hm
    exact .inr ⟨by simpa using hiff, refusal, authMiddleware_status hauth, rfl⟩

variable [Narrow α β]

variable (S) in
/-- mirrors tesseract-api/src/http.rs:340-352 -/
def insertHandler (env : Env) (s : Engine α β) (req : InsertRequest α) :
    Option (Engine α β × Reply α β) :=
  (s.insert S.deps (storageCall env req)).map fun p =>
    match p with
    | (s, .ok ()) => (s, ⟨201, .insert ⟨true, req.id, none⟩, none⟩)
    | (s, .error e) => (s, ⟨400, .insert ⟨false, req.id, some e.text⟩, none⟩)

variable (S) in
/-- mirrors tesseract-api/src/http.rs:184-213 -/
def route (env : Env) (s : Engine α β) (req : Request ι) : Option (Engine α β × Reply α β) :=
  match req.path with
  | "/health/liveness" | "/health" => only S "GET" req (some (s, livenessHandler)) s
  | "/health/readiness" => only S "GET" req (some (s, readinessHandler s)) s
  | "/metrics" => only S "GET" req (some (s, metricsHandler)) s
  | "/openapi.json" => only S "GET" req (some (s, ⟨200, .page, none⟩)) s
  | "/query" => guarded S req s (only S "POST" req
    (extracted s (S.axum.readQuery req.headers req.body) fun q =>
      (queryHandler S s q).map fun r => (s, r)) s)
  | "/insert" => guarded S req s (only S "POST" req
    (extracted s (S.axum.readInsert req.headers req.body) fun i => insertHandler S env s i) s)
  | _ => some (s, S.axum.elsewhere req)

variable {env : Env}

theorem insertHandler_effect {i : InsertRequest α}
    (h : insertHandler S env s i = some (s', reply)) :
    s.insertAll S.deps [storageCall env i] = some s' ∧ reply.Neutral := by
  obtain ⟨⟨s'', r⟩, hinsert, heq⟩ := Option.map_eq_some_iff.mp h
  cases r with
  | ok u =>
    obtain ⟨rfl, rfl⟩ := Prod.mk.inj heq
    simp [Engine.insertAll, hinsert, Reply.Neutral]
  | error e =>
    obtain ⟨rfl, rfl⟩ := Prod.mk.inj heq
    simp [Engine.insertAll, hinsert, Reply.Neutral]

variable (S env req s s' reply) in
/-- What a request does to the storage is its insert, if it comes to one, and it is refused
(401) on the protected paths if the provider does not know it. -/
structure Effect : Prop where
  storage : s.insertAll S.deps ((insertOf S req).toList.map (storageCall env)) = some s'
  notLimited : reply.status ≠ 429
  refused : Protected req.path → (reply.status = 401 ↔ authenticated S req = false)

theorem Plain.effect {out : Option (Engine α β × Reply α β)} (hplain : Plain s out)
    (h : out = some (s', reply)) (hinsert : insertOf S req = none)
    (hauth : Protected req.path → authenticated S req = true) : Effect S s s' req reply env := by
  obtain ⟨rfl, h401, h429⟩ := hplain s' reply h
  exact ⟨by simp [hinsert, Engine.insertAll], h429, fun hpath => by simp [h401, hauth hpath]⟩

theorem guarded_effect {handler : Option (Engine α β × Reply α β)}
    (hpath : Protected req.path) (h : guarded S req s handler = some (s', reply))
    (hhandler : authenticated S req = true → handler = some (s', reply) →
      Effect S s s' req reply env) : Effect S s s' req reply env := by
  rcases guarded_cases (S := S) (s := s) hpath handler with ⟨hauth, heq⟩ |
    ⟨hauth, refusal, hstatus, heq⟩
  · exact hhandler hauth (heq ▸ h)
  · obtain ⟨rfl, rfl⟩ := Prod.mk.inj (Option.some.inj (heq.symm.trans h))
    exact ⟨by simp [insertOf, hauth, Engine.insertAll], by simp [hstatus], fun _ => by
      simp [hstatus, hauth]⟩

theorem insert_route_effect (hpath : req.path = "/insert") (hauth : authenticated S req = true)
    (h : only S "POST" req (extracted s (S.axum.readInsert req.headers req.body) fun i =>
      insertHandler S env s i) s = some (s', reply)) : Effect S s s' req reply env := by
  by_cases hmethod : req.method = "POST"
  · rw [only, if_pos ((S.axum.takes_post _).mpr hmethod)] at h
    cases hbody : S.axum.readInsert req.headers req.body with
    | error refusal =>
      rw [hbody] at h
      refine (plain_some (S.axum.readInsert_neutral _ _ _ hbody)).effect h ?_ fun _ => hauth
      simp [insertOf, hbody, Except.toOption]
    | ok i =>
      rw [hbody] at h
      have hinsert : insertOf S req = some i := by
        rw [insertOf, if_pos ⟨hpath, hmethod, hauth, S.axum.readInsert_json _ _ _ hbody⟩, hbody]
        rfl
      obtain ⟨hstorage, h401, h429⟩ := insertHandler_effect h
      exact ⟨by rw [hinsert]; exact hstorage, h429, fun _ => by simp [h401, hauth]⟩
  · have hno : ¬ S.axum.takes "POST" req.method = true :=
      fun htakes => hmethod ((S.axum.takes_post _).mp htakes)
    rw [only, if_neg hno] at h
    have hinsert : insertOf S req = none := if_neg fun hc => hmethod hc.2.1
    exact (plain_some S.axum.methodNotAllowed_neutral).effect h hinsert fun _ => hauth

theorem route_effect (h : route S env s req = some (s', reply)) :
    Effect S s s' req reply env := by
  have hpublic : ∀ {reply' : Reply α β}, reply'.Neutral →
      only S "GET" req (some (s, reply')) s = some (s', reply) → ¬ Protected req.path →
      Effect S s s' req reply env := by
    intro reply' hreply h hpath
    exact (only_plain (plain_some hreply)).effect h
      (insertOf_path fun hinsert => hpath (.inr hinsert)) fun hc => absurd hc hpath
  unfold route at h
  split at h
  · next hpath => exact hpublic (by simp [Reply.Neutral, livenessHandler]) h (by
      simp [Protected, hpath])
  · next hpath => exact hpublic (by simp [Reply.Neutral, livenessHandler]) h (by
      simp [Protected, hpath])
  · next hpath =>
    refine hpublic ?_ h (by simp [Protected, hpath])
    simp only [Reply.Neutral, readinessHandler]
    split <;> simp
  · next hpath => exact hpublic (by simp [Reply.Neutral, metricsHandler]) h (by
      simp [Protected, hpath])
  · next hpath => exact hpublic (by simp [Reply.Neutral]) h (by simp [Protected, hpath])
  · next hpath =>
    refine guarded_effect (.inl hpath) h fun hauth h => ?_
    exact (only_plain query_plain).effect h (insertOf_path (by simp [hpath])) fun _ => hauth
  · next hpath =>
    refine guarded_effect (.inr hpath) h fun hauth h => ?_
    exact insert_route_effect hpath hauth h
  · next hquery hinsert =>
    obtain ⟨rfl, rfl⟩ := Prod.mk.inj (Option.some.inj h)
    refine ⟨by simp [insertOf_path hinsert, Engine.insertAll], S.axum.elsewhere_unlimited req,
      fun hpath => ?_⟩
    rcases hpath with hpath | hpath
    · exact absurd hpath hquery
    · exact absurd hpath hinsert

variable (S) [DecidableEq ι]

/-- mirrors tesseract-api/src/http.rs:143-154 -/
def clientIp (req : Request ι) : ι :=
  (req.connectInfo.or ((headerText req.headers "x-forwarded-for").bind fun value =>
    S.parseIp (String.ofList (trim ((value.toList.splitOn ',').headD []))))).getD S.localhost

/-- `req` behind the limiter, if there is one: whether it passes.
mirrors tesseract-api/src/http.rs:138-165 -/
def rateLimitMiddleware (limiter : Option (RateLimiter ι)) (req : Request ι) :
    Option (RateLimiter ι) × Bool :=
  match limiter with
  | none => (none, true)
  | some l =>
    let (l, r) := l.check req.now (clientIp S req)
    (some l, r.isOk)

/-- One request; `none` if a handler panics.
mirrors tesseract-api/src/http.rs:179-217 -/
def serve (env : Env) (w : Server ι α β) (req : Request ι) : Option (Server ι α β × Reply α β) :=
  match rateLimitMiddleware S w.limiter req with
  | (limiter, false) =>
    some (⟨w.storage, limiter⟩, ⟨429, .error "rate limit exceeded", some "60"⟩)
  | (limiter, true) =>
    (route S env w.storage req).map fun p => (⟨p.1, limiter⟩, p.2)

/-- Requests one after the other, with the replies. -/
def serveAll : Server ι α β → List (Env × Request ι) → Option (Server ι α β × List (Reply α β))
  | w, [] => some (w, [])
  | w, (env, req) :: reqs => do
    let (w, reply) ← serve S env w req
    let (w, replies) ← serveAll w reqs
    some (w, reply :: replies)

/-! ## Runs of the server -/

/-- What the answered requests have asked of the storage. -/
def taken (answered : List ((Env × Request ι) × Reply α β)) : List (Call α) :=
  answered.flatMap fun p =>
    if p.2.status = 429 then [] else (insertOf S p.1.2).toList.map (storageCall p.1.1)

/-- When the requests from `ip` came that were not turned away by the limiter. -/
def passedTimes (ip : ι) (answered : List ((Env × Request ι) × Reply α β)) : List Nat :=
  (answered.filter fun p => clientIp S p.1.2 = ip ∧ p.2.status ≠ 429).map fun p => p.1.2.now

/-- Whom the requests come from, and when. -/
def arrivals (reqs : List (Env × Request ι)) : List (ι × Nat) :=
  reqs.map fun p => (clientIp S p.2, p.2.now)

variable {S} {w w' : Server ι α β}

theorem serve_step (h : serve S env w req = some (w', reply)) :
    w'.limiter = (rateLimitMiddleware S w.limiter req).1 ∧
      (reply.status = 429 ↔ (rateLimitMiddleware S w.limiter req).2 = false) ∧
      w.storage.insertAll S.deps (taken S [((env, req), reply)]) = some w'.storage ∧
      (Protected req.path → authenticated S req = false →
        reply.status = 401 ∨ reply.status = 429) := by
  unfold serve at h
  split at h
  · next limiter hlimiter =>
    obtain ⟨rfl, rfl⟩ := Prod.mk.inj (Option.some.inj h)
    simp [hlimiter, taken, Engine.insertAll]
  · next limiter hlimiter =>
    obtain ⟨⟨s', reply'⟩, hroute, heq⟩ := Option.map_eq_some_iff.mp h
    obtain ⟨rfl, rfl⟩ := Prod.mk.inj heq
    have heffect := route_effect hroute
    refine ⟨by rw [hlimiter], ?_, ?_, fun hpath hauth => ?_⟩
    · simp [hlimiter, heffect.notLimited]
    · simpa [taken, heffect.notLimited] using heffect.storage
    · exact .inl ((heffect.refused hpath).mpr hauth)

theorem serveAll_cons {reqs : List (Env × Request ι)} {replies : List (Reply α β)}
    (h : serveAll S w ((env, req) :: reqs) = some (w', replies)) :
    ∃ w₁ reply rest, replies = reply :: rest ∧ serve S env w req = some (w₁, reply) ∧
      serveAll S w₁ reqs = some (w', rest) := by
  obtain ⟨⟨w₁, reply⟩, hserve, h⟩ := Option.bind_eq_some_iff.mp h
  obtain ⟨⟨w₂, rest⟩, hrest, h⟩ := Option.bind_eq_some_iff.mp h
  obtain ⟨rfl, rfl⟩ := Prod.mk.inj (Option.some.inj h)
  exact ⟨w₁, reply, rest, rfl, hserve, hrest⟩

omit [Narrow α β] in
theorem passes_iff {l : RateLimiter ι}
    (h : reply.status = 429 ↔ (rateLimitMiddleware S (some l) req).2 = false) :
    reply.status ≠ 429 ↔ (l.check req.now (clientIp S req)).2 = .ok () := by
  rw [Ne, h]
  simp only [rateLimitMiddleware]
  cases (l.check req.now (clientIp S req)).2 <;> simp [Except.isOk, Except.toBool]

/-- The times that one request adds on both sides. -/
theorem passed_step (h : serve S env w req = some (w', reply)) {l : RateLimiter ι}
    (hl : w.limiter = some l) (ip : ι) : ∃ l', w'.limiter = some l' ∧
      ∀ (answered : List ((Env × Request ι) × Reply α β)) (reqs : List (Env × Request ι)),
        passedTimes S ip answered = l'.allowed ip (arrivals S reqs) →
        passedTimes S ip (((env, req), reply) :: answered) =
          l.allowed ip (arrivals S ((env, req) :: reqs)) := by
  obtain ⟨hlimiter, hpass, -⟩ := serve_step h
  rw [hl] at hlimiter hpass
  have hok := passes_iff hpass
  refine ⟨_, hlimiter, fun answered reqs hrun => ?_⟩
  rw [arrivals, List.map_cons, RateLimiter.allowed, passedTimes]
  by_cases hcond : clientIp S req = ip ∧ reply.status ≠ 429
  · rw [if_pos ⟨hcond.1, hok.mp hcond.2⟩, List.filter_cons_of_pos (by simpa using hcond),
      List.map_cons]
    exact congrArg _ hrun
  · rw [if_neg fun hc => hcond ⟨hc.1, hok.mpr hc.2⟩,
      List.filter_cons_of_neg (by simpa using hcond)]
    exact hrun

theorem fresh_run {reqs : List (Env × Request ι)} {replies : List (Reply α β)}
    (h : serveAll S w reqs = some (w', replies)) {l : RateLimiter ι} (hl : w.limiter = some l)
    (hmax : 0 < l.maxRequests) (hnodup : ((arrivals S reqs).map Prod.fst).Nodup)
    (hfresh : ∀ a ∈ arrivals S reqs, l.windows.lookup a.1 = none) :
    ∀ reply ∈ replies, reply.status ≠ 429 := by
  induction reqs generalizing w replies l with
  | nil =>
    obtain ⟨rfl, rfl⟩ := Prod.mk.inj (Option.some.inj h)
    simp
  | cons r reqs ih =>
    obtain ⟨env, req⟩ := r
    obtain ⟨w₁, reply, rest, rfl, hserve, hrest⟩ := serveAll_cons h
    obtain ⟨hlimiter, hpass, -⟩ := serve_step hserve
    rw [hl] at hlimiter hpass
    obtain ⟨hnew, hnodup⟩ := List.nodup_cons.mp hnodup
    -- a first request passes, and leaves the other addresses without a window
    have hnone : l.windows.lookup (clientIp S req) = none := hfresh _ List.mem_cons_self
    have hok : (l.check req.now (clientIp S req)).2 = .ok () := by
      rw [RateLimiter.check_ok_iff, hnone]
      have hone : (1 : UInt64) ≤ l.maxRequests := UInt64.le_iff_toNat_le.mpr
        (UInt64.lt_iff_toNat_lt.mp hmax)
      simpa [RateLimiter.countRequest] using hone
    have hl₁ : w₁.limiter = some (l.check req.now (clientIp S req)).1 := hlimiter
    have hrun := ih hrest hl₁ hmax hnodup fun a ha => by
      rw [RateLimiter.check_lookup, if_neg]
      · exact hfresh a (List.mem_cons_of_mem _ ha)
      · intro heq
        have hmem : clientIp S req ∈ (arrivals S reqs).map Prod.fst := by
          rw [← heq]
          exact List.mem_map_of_mem ha
        exact hnew hmem
    intro reply' hreply
    rcases List.mem_cons.mp hreply with rfl | hreply
    · exact (passes_iff hpass).mpr hok
    · exact hrun reply' hreply

/-- Requests that name addresses of their own are never turned away, whoever sends them and
however many they are. -/
theorem addresses_unlimited {maxRpm : UInt64} (hmax : 0 < maxRpm) {s : Engine α β}
    {reqs : List (Env × Request ι)} {replies : List (Reply α β)}
    (h : serveAll S ⟨s, some (.new maxRpm)⟩ reqs = some (w', replies))
    (hnodup : ((arrivals S reqs).map Prod.fst).Nodup) : ∀ reply ∈ replies, reply.status ≠ 429 :=
  fresh_run h rfl hmax hnodup fun _ _ => rfl

/-! ## Inserts with and without a key, and with another type of content -/

/-- Every body is the same insert, if its type is JSON. -/
def oneBody : Axum String Lit Lit where
  takes route method := method = route ∨ route = "GET" ∧ method = "HEAD"
  methodNotAllowed := ⟨405, .page, none⟩
  isJson headers := headerText headers "content-type" = some "application/json"
  readQuery headers _ :=
    if headerText headers "content-type" = some "application/json" then .ok ⟨"", none⟩
    else .error ⟨415, .page, none⟩
  readInsert headers _ :=
    if headerText headers "content-type" = some "application/json" then .ok ⟨7, [.fin 5], none⟩
    else .error ⟨415, .page, none⟩
  elsewhere _ := ⟨404, .page, none⟩
  takes_post method := by simp
  methodNotAllowed_neutral := ⟨by decide, by decide⟩
  readQuery_neutral headers body reply h := by
    split at h <;> cases h
    exact ⟨by decide, by decide⟩
  readInsert_neutral headers body reply h := by
    split at h <;> cases h
    exact ⟨by decide, by decide⟩
  readInsert_json headers body req h := by
    split at h
    · next hjson => exact decide_eq_true hjson
    · cases h
  elsewhere_unlimited req := by decide

def keyed : Setup String Lit Lit where
  deps := Engine.deps
  auth := some (ApiKeyAuth.authenticate (ApiKeyAuth.fromEnv "k1:admin,k2:reader"))
  executor _ _ _ := some (.ok [])
  localhost := "127.0.0.1"
  parseIp := some
  axum := oneBody

def posted (addr key contentType : String) : Env × Request String :=
  (Engine.calm, ⟨0, none, "POST", "/insert",
    [("x-api-key", key.toUTF8.toList), ("x-forwarded-for", addr.toUTF8.toList),
      ("content-type", contentType.toUTF8.toList)], []⟩)

def threePosts : List (Env × Request String) := [posted "10.0.0.1" "k1" "application/json",
  posted "10.0.0.2" "k3" "application/json", posted "10.0.0.3" "k1" "text/plain"]

/-- At most one request a minute from each address. -/
def strict : Server String Lit Lit := ⟨Engine.single, some (.new 1)⟩

theorem addresses_unlimited_three : ∃ replies : List (Reply Lit Lit),
    replies.map Reply.status = [201, 401, 415] ∧ ∀ reply ∈ replies, reply.status ≠ 429 := by
  have hstatus : ((serveAll keyed strict threePosts).map fun p => p.2.map Reply.status) =
      some [201, 401, 415] := by
    decide +kernel
  obtain ⟨⟨w', replies⟩, hrun, hstatus⟩ := Option.map_eq_some_iff.mp hstatus
  exact ⟨replies, hstatus, addresses_unlimited (by decide) hrun (by decide +kernel)⟩

end Tesseract.L7
