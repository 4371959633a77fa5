/-
  The HTTP server for metrics and status (`HttpServer` in `peerq/transport.py`).

  A connection carries one request: a request line, header lines and, in principle,
  a body, which is refused.  `parse` reads it with its limits and error paths, and
  `handleClient` gives the responses that are written.  `parse_call_iff` says which
  streams of octets are requests that reach the handler.
-/
import PeerQ.Lib.Lines
import PeerQ.Security

namespace PeerQ

open Py

/-- The methods of `str` and `bytes` that depend on the tables of Unicode. -/
structure TextFunctions where
  /-- `data.decode("utf-8", errors="replace")` -/
  decode : Bytes → Str
  isSpace : CodePoint → Bool
  lower : Str → Str
  /-- `int(text)`; `none` is its `ValueError` -/
  int : Str → Option ℤ

/-- What happens after the octets that the server gets to read: the stream ends, nothing more comes,
    or the connection breaks. -/
inductive Ending where
  | eof
  | silent
  | reset
  deriving DecidableEq

/-- The exceptions that `_handle_client` tells apart. -/
inductive HttpError where
  | timeoutError
  | incompleteReadError
  | valueError
  | osError
  | other
  deriving DecidableEq

/-- The content types of the responses. -/
inductive ContentType where
  | plainUtf8
  | plain
  | prometheus
  | html
  | json
  deriving DecidableEq

def ContentType.text : ContentType → Str
  | .plainUtf8 => str "text/plain; charset=utf-8"
  | .plain => str "text/plain"
  | .prometheus => str "text/plain; version=0.0.4; charset=utf-8"
  | .html => str "text/html; charset=utf-8"
  | .json => str "application/json"

structure Reply where
  status : ℕ
  ctype : ContentType := .plainUtf8
  body : Bytes
  deriving DecidableEq

/-- The handler of requests: method and path. -/
abbrev RequestHandler := Str → Str → Except HttpError Reply

def isLoopbackHost (T : TextFunctions) (ipAddress : Str → Option Bool) (host : Str) : Bool :=
  if T.lower host = str "localhost" then true else (ipAddress host).getD false

/-- The arguments of an `HttpServer` that its constructor takes, with the limits of its
    `SecurityConfig`; `ipAddress` is `is_loopback` of an address, if it is one. -/
structure HttpServer where
  host : Str
  authToken : Option Str := none
  maxHttpHeaders : ℕ := 8 * 1024
  maxHttpBody : ℕ := 64 * 1024
  text : TextFunctions
  ipAddress : Str → Option Bool
  remote_token : isLoopbackHost text ipAddress host = false → authToken ≠ none
  token_long : ∀ t ∈ authToken, 32 ≤ t.length
  maxHttpHeaders_pos : 0 < maxHttpHeaders := by decide
  maxHttpBody_pos : 0 < maxHttpBody := by decide

namespace HttpServer

def lf : Byte := 10

def crlf : Bytes := ascii "\r\n"

def badRequest : Reply := { status := 400, body := ascii "Bad Request\n" }

def headersTooLarge : Reply := { status := 431, body := ascii "Request Header Fields Too Large\n" }

variable (S : HttpServer)

/-! ## Reading a request -/

/-- `reader.readline()` when `line` are the next octets of the stream, up to a line feed or to its
    end; a line longer than the limit of the reader raises `ValueError`. -/
def readline (ending : Ending) (line : Bytes) : Except HttpError Bytes :=
  if line.getLast? = some lf then
    if S.maxHttpHeaders + 1 < line.length then .error .valueError else .ok line
  else if S.maxHttpHeaders < line.length then .error .valueError
  else match ending with
    | .eof => .ok line
    | .silent => .error .timeoutError
    | .reset => .error .osError

/-- `reader.readexactly(n)`. -/
def readexactly (ending : Ending) (n : ℕ) (octets : Bytes) : Except HttpError Bytes :=
  if n ≤ octets.length then .ok (octets.take n)
  else match ending with
    | .eof => .error .incompleteReadError
    | .silent => .error .timeoutError
    | .reset => .error .osError

/-- The end of the headers: an empty line, or no line any more. -/
def isBlank (hdr : Bytes) : Bool := hdr = [] || hdr = crlf || hdr = [lf]

/-- The name and the value of a header line. -/
def headerField (hdr : Bytes) : Option (Str × Str) :=
  (splitOnce 0x3a (S.text.decode hdr)).map fun (key, value) =>
    (S.text.lower (strip S.text.isSpace key), strip S.text.isSpace value)

/-- The loop over the header lines: a reply that ends the request, or the headers and the rest of the
    stream. -/
def readHeaders (ending : Ending) : ℕ → Dict Str Str → List Bytes →
    Except HttpError (Reply ⊕ (Dict Str Str × List Bytes))
  | headerBytes, headers, [] => do
    let _ ← S.readline ending []
    if S.maxHttpHeaders < headerBytes then return .inl headersTooLarge
    return .inr (headers, [])
  | headerBytes, headers, line :: rest => do
    let hdr ← S.readline ending line
    if S.maxHttpHeaders < headerBytes + hdr.length then return .inl headersTooLarge
    if isBlank hdr then return .inr (headers, rest)
    if (0x3a : Byte) ∉ hdr then return .inl badRequest
    match S.headerField hdr with
    | none => .error .valueError
    | some (key, value) => readHeaders ending (headerBytes + hdr.length) (headers.set key value) rest

/-- What a request comes to. -/
inductive Verdict where
  | nothing
  | reply (r : Reply)
  | call (method path : Str)
  deriving DecidableEq

/-- `hmac.compare_digest` on texts, which have to be ASCII. -/
def compareDigest (a b : Str) : Except HttpError Bool :=
  if (a ++ b).all fun c => c.val < 0x80 then .ok (a = b) else .error .other

/-- The bearer token of the headers is the one of the server, if it has one. -/
def authorized (headers : Dict Str Str) : Except HttpError Bool :=
  match S.authToken with
  | none => .ok true
  | some token =>
    compareDigest ((headers.get (str "authorization")).getD []) (str "Bearer " ++ token)

def bodyLength (headers : Dict Str Str) : ℤ :=
  (S.text.int ((headers.get (str "content-length")).getD (str "0"))).getD (-1)

/-- The decision on a request with its headers read. -/
def route (ending : Ending) (method path : Str) (headers : Dict Str Str) (rest : List Bytes) :
    Except HttpError Verdict := do
  let bodyLength := S.bodyLength headers
  if !(← S.authorized headers) then return .reply { status := 401, body := ascii "Unauthorized\n" }
  if bodyLength < 0 then return .reply { status := 400, body := ascii "Invalid Content-Length\n" }
  if S.maxHttpBody < bodyLength then
    return .reply { status := 413, body := ascii "Request body too large\n" }
  if bodyLength ≠ 0 then
    -- status endpoints are read-only and do not accept request bodies
    let _ ← readexactly ending bodyLength.toNat rest.flatten
    return .reply { status := 400, body := ascii "Request body is not accepted\n" }
  return .call method path

/-- A request from its lines on. -/
def parse (ending : Ending) (ls : List Bytes) : Except HttpError Verdict := do
  let line ← S.readline ending (ls.head?.getD [])
  if line = [] then return .nothing
  if S.maxHttpHeaders < line.length then return .reply headersTooLarge
  match words S.text.isSpace (strip S.text.isSpace (S.text.decode line)) with
  | [method, path, _] =>
    if 2048 < path.length then return .reply badRequest
    match ← S.readHeaders ending line.length .empty ls.tail with
    | .inl r => return .reply r
    | .inr (headers, rest) => S.route ending method path headers rest
  | _ => return .reply badRequest

/-! ## Responding -/

/-- The body of a success is bounded. -/
def limited (r : Reply) : Reply :=
  if r.status = 200 ∧ S.maxHttpBody < r.body.length then
    { status := 500, body := ascii "Response too large\n" }
  else r

/-- The reply to a request, if there is one. -/
def respond (handler : RequestHandler) (ending : Ending) (input : Bytes) :
    Except HttpError (Option Reply) := do
  match ← S.parse ending (lines lf input) with
  | .nothing => return none
  | .reply r => return some r
  | .call method path => return some (S.limited (← handler method path))

/-- The reply of the `except` clauses, with the content type and the body at hand. -/
def onError (ctype : ContentType) (body : Bytes) : HttpError → Reply
  | .timeoutError => ⟨408, ctype, ascii "Request Timeout\n"⟩
  | .incompleteReadError | .valueError | .osError => ⟨400, ctype, body⟩
  | .other => ⟨500, ctype, ascii "Internal Server Error\n"⟩

/-- `_handle_client`: the responses that are written on a connection.  If the first one cannot be
    written out, `drain` says why, and another one follows it. -/
def handleClient (handler : RequestHandler) (ending : Ending) (drain : Except HttpError Unit)
    (input : Bytes) : List Reply :=
  match S.respond handler ending input with
  | .ok none => []
  | .ok (some r) =>
    match drain with
    | .ok _ => [r]
    | .error e => [r, onError r.ctype r.body e]
  | .error e => [onError .plainUtf8 (ascii "Bad Request\n") e]

def reason : ℕ → Str
  | 200 => str "OK"
  | 400 => str "Bad Request"
  | 401 => str "Unauthorized"
  | 404 => str "Not Found"
  | 405 => str "Method Not Allowed"
  | 408 => str "Request Timeout"
  | 413 => str "Payload Too Large"
  | 431 => str "Request Header Fields Too Large"
  | 500 => str "Internal Server Error"
  | _ => str "Unknown"

/-- The header fields of `response_header`, without the ends of their lines. -/
def fieldLines (r : Reply) : List Str :=
  [str "Content-Type: " ++ r.ctype.text,
   str "Content-Length: " ++ natText r.body.length,
   str "Cache-Control: no-store",
   str "X-Content-Type-Options: nosniff",
   str "Content-Security-Policy: default-src 'self'; frame-ancestors 'none'"] ++
  (if r.status = 401 then [str "WWW-Authenticate: Bearer realm=peerq"] else []) ++
  [str "Connection: close"]

/-- The lines of `response_header`, without their ends. -/
def headerLines (r : Reply) : List Str :=
  (str "HTTP/1.1 " ++ natText r.status ++ str " " ++ reason r.status) :: (fieldLines r ++ [[]])

/-- `_write_response`: the octets of a response. -/
def response (r : Reply) : Bytes :=
  (headerLines r).flatMap (fun line => (line ++ str "\r\n").flatMap CodePoint.utf8) ++ r.body

/-- The octets that are written on a connection. -/
def written (handler : RequestHandler) (ending : Ending) (drain : Except HttpError Unit)
    (input : Bytes) : Bytes :=
  (S.handleClient handler ending drain input).flatMap response

/-! ## The requests that reach the handler -/

/-- The value of the last of the header lines with a name. -/
def lastValue (name : Str) (hdrs : List Bytes) : Option Str :=
  (hdrs.filterMap fun h => (S.headerField h).bind fun f =>
    if f.1 = name then some f.2 else none).getLast?

/-- A header line adds to the headers. -/
def setHeader (headers : Dict Str Str) (h : Bytes) : Dict Str Str :=
  match S.headerField h with
  | none => headers
  | some (key, value) => headers.set key value

/-- The headers of header lines. -/
def collect (headers : Dict Str Str) (hdrs : List Bytes) : Dict Str Str := hdrs.foldl S.setHeader headers

/-- A line that can be read: a whole one, or the last one of a stream that ends. -/
def Readable (ending : Ending) (line : Bytes) : Prop := line.getLast? = some lf ∨ ending = .eof

/-- Where the headers end: with the stream, or with an empty line. -/
def EndsHeaders (ending : Ending) (tail : List Bytes) : Prop :=
  tail = [] ∧ ending = .eof ∨ ∃ blank rest, tail = blank :: rest ∧ isBlank blank = true

/-- A stream of octets that is a request: a request line with a method and a path, header lines, and
    an end of the headers, all of them within the limit; the last authorization carries the token, and
    no body is announced. -/
structure Request (ending : Ending) (input line : Bytes) (hdrs tail : List Bytes)
    (method path : Str) : Prop where
  text : lines lf input = line :: hdrs ++ tail
  ends : EndsHeaders ending tail
  readable : ∀ l ∈ line :: hdrs ++ tail.take 1, Readable ending l
  size : line.length + (hdrs ++ tail.take 1).flatten.length ≤ S.maxHttpHeaders
  words : ∃ version, words S.text.isSpace (strip S.text.isSpace (S.text.decode line)) =
    [method, path, version]
  path_short : path.length ≤ 2048
  fields : ∀ h ∈ hdrs, isBlank h = false ∧ 0x3a ∈ h ∧ (S.headerField h).isSome = true
  token : ∀ t ∈ S.authToken, S.lastValue (str "authorization") hdrs = some (str "Bearer " ++ t) ∧
    ∀ c ∈ t, c.val < 0x80
  no_body : S.text.int ((S.lastValue (str "content-length") hdrs).getD (str "0")) = some 0

section
variable {S} {ending : Ending}

theorem bind_ok_iff {α β : Type} {x : Except HttpError α} {f : α → Except HttpError β} {b : β} :
    x >>= f = .ok b ↔ ∃ a, x = .ok a ∧ f a = .ok b := by
  cases x with
  | error e => simp [bind, Except.bind]
  | ok a => simp [bind, Except.bind]

/-- Within the limit, a line is read if it can be. -/
theorem readline_ok_iff {line hdr : Bytes} (h : line.length ≤ S.maxHttpHeaders) :
    S.readline ending line = .ok hdr ↔ hdr = line ∧ Readable ending line := by
  unfold readline Readable
  by_cases hlf : line.getLast? = some lf
  · rw [if_pos hlf, if_neg (by omega)]
    simp [hlf, eq_comm]
  · rw [if_neg hlf, if_neg (by omega)]
    cases ending <;> simp [hlf, eq_comm]

theorem readline_eq {line hdr : Bytes} (h : S.readline ending line = .ok hdr) : hdr = line := by
  unfold readline at h
  split_ifs at h
  · exact (Except.ok.inj h).symm
  · cases ending with
    | eof => exact (Except.ok.inj h).symm
    | silent => cases h
    | reset => cases h

/-- The headers have the last value of each name. -/
theorem get_collect (name : Str) (hdrs : List Bytes) :
    (S.collect .empty hdrs).get name = S.lastValue name hdrs := by
  induction hdrs using List.reverseRecOn with
  | nil => rfl
  | append_singleton hdrs h ih =>
    have hconcat : S.collect .empty (hdrs ++ [h]) = S.setHeader (S.collect .empty hdrs) h := by
      simp [collect]
    rw [hconcat, setHeader, lastValue, List.filterMap_append]
    cases hf : S.headerField h with
    | none => simpa [hf, lastValue] using ih
    | some f =>
      rw [Dict.get_set, ih]
      by_cases hk : f.1 = name
      · simp [hf, hk]
      · simp [hf, hk, lastValue]

/-- **The header lines that are taken.** -/
theorem readHeaders_iff {ls rest : List Bytes} {headers' : Dict Str Str} : ∀ {n : ℕ}
    {headers : Dict Str Str}, n ≤ S.maxHttpHeaders →
    (S.readHeaders ending n headers ls = .ok (.inr (headers', rest)) ↔
      ∃ hdrs tail, ls = hdrs ++ tail ∧ EndsHeaders ending tail ∧ rest = tail.tail ∧
        (∀ l ∈ hdrs ++ tail.take 1, Readable ending l) ∧
        n + (hdrs ++ tail.take 1).flatten.length ≤ S.maxHttpHeaders ∧
        (∀ h ∈ hdrs, isBlank h = false ∧ 0x3a ∈ h ∧ (S.headerField h).isSome = true) ∧
        headers' = S.collect headers hdrs) := by
  induction ls with
  | nil =>
    intro n headers hn
    have hread : ∀ x, S.readline ending [] = .ok x ↔ x = [] ∧ ending = .eof := by
      intro x
      rw [readline_ok_iff (Nat.zero_le _)]
      simp [Readable]
    simp only [readHeaders, bind_ok_iff, hread, if_neg (not_lt.2 hn)]
    constructor
    · rintro ⟨x, ⟨-, he⟩, h⟩
      obtain ⟨rfl, rfl⟩ := Prod.mk.inj (Sum.inr.inj (Except.ok.inj h))
      exact ⟨[], [], rfl, Or.inl ⟨rfl, he⟩, rfl, by simp, by simpa using hn, by simp, rfl⟩
    · rintro ⟨hdrs, tail, hls, hends, rfl, -, -, -, rfl⟩
      obtain ⟨rfl, rfl⟩ := List.append_eq_nil_iff.1 hls.symm
      obtain ⟨-, he⟩ | ⟨blank, rest, hb, -⟩ := hends
      · exact ⟨[], ⟨rfl, he⟩, rfl⟩
      · cases hb
  | cons line ls ih =>
    intro n headers hn
    simp only [readHeaders, bind_ok_iff]
    constructor
    · rintro ⟨hdr, hread, h⟩
      obtain rfl := readline_eq hread
      split_ifs at h with hsize hblank hcolon
      · cases h
      · obtain ⟨rfl, rfl⟩ := Prod.mk.inj (Sum.inr.inj (Except.ok.inj h))
        have hline := ((readline_ok_iff (by omega)).1 hread).2
        refine ⟨[], hdr :: ls, rfl, Or.inr ⟨hdr, ls, rfl, hblank⟩, rfl, ?_, ?_, by simp, rfl⟩
        · simpa using hline
        · simpa using hsize
      · split at h
        · cases h
        · next key value hfield =>
          obtain ⟨hdrs, tail, rfl, hends, rfl, hlines, hlen, hfields, rfl⟩ := (ih (by omega)).1 h
          have hline := ((readline_ok_iff (by omega)).1 hread).2
          refine ⟨hdr :: hdrs, tail, rfl, hends, rfl, ?_, ?_, ?_, ?_⟩
          · exact List.forall_mem_cons.2 ⟨hline, hlines⟩
          · simp only [List.cons_append, List.flatten_cons, List.length_append] at hlen ⊢
            omega
          · exact List.forall_mem_cons.2 ⟨⟨by simpa using hblank, hcolon, by simp [hfield]⟩, hfields⟩
          · simp [collect, setHeader, hfield]
      · cases h
    · rintro ⟨hdrs, tail, hls, hends, rfl, hlines, hlen, hfields, rfl⟩
      cases hdrs with
      | nil =>
        obtain rfl : line :: ls = tail := hls
        obtain ⟨hnil, -⟩ | ⟨blank, rest, hb, hblank⟩ := hends
        · cases hnil
        obtain ⟨rfl, rfl⟩ := List.cons.inj hb
        simp only [List.nil_append, List.take_succ_cons, List.take_zero, List.flatten_cons, List.flatten_nil,
          List.append_nil] at hlen
        refine ⟨line, (readline_ok_iff (by omega)).2 ⟨rfl, hlines line (by simp)⟩, ?_⟩
        rw [if_neg (by omega), if_pos hblank]
        rfl
      | cons hdr hdrs =>
        obtain ⟨rfl, rfl⟩ := List.cons.inj hls
        simp only [List.cons_append, List.flatten_cons, List.length_append] at hlen
        obtain ⟨⟨hblank, hcolon, hfield⟩, hfields⟩ := List.forall_mem_cons.1 hfields
        obtain ⟨f, hf⟩ := Option.isSome_iff_exists.1 hfield
        refine ⟨line, (readline_ok_iff (by omega)).2 ⟨rfl, hlines line (by simp)⟩, ?_⟩
        rw [if_neg (by omega), if_neg (by simp [hblank]), if_neg (not_not.2 hcolon)]
        simp only [hf]
        refine (ih (by omega)).2 ⟨hdrs, tail, rfl, hends, rfl, ?_, ?_, hfields, ?_⟩
        · exact fun l hl => hlines l (by simp only [List.cons_append]; exact List.mem_cons_of_mem _ hl)
        · rw [List.flatten_append, List.length_append]
          rw [List.flatten_append, List.length_append] at hlen
          omega
        · simp [collect, setHeader, hf]

theorem route_call_iff {method path : Str} {headers : Dict Str Str} {rest : List Bytes}
    {method' path' : Str} :
    S.route ending method path headers rest = .ok (.call method' path') ↔
      S.authorized headers = .ok true ∧ S.bodyLength headers = 0 ∧ method = method' ∧ path = path' := by
  simp only [route, bind_ok_iff]
  constructor
  · rintro ⟨ok, hauth, h⟩
    split_ifs at h with h1 h2 h3 h4
    · cases h
    · cases h
    · cases h
    · obtain ⟨_, -, h⟩ := bind_ok_iff.1 h
      cases h
    · obtain ⟨rfl, rfl⟩ := Verdict.call.inj (Except.ok.inj h)
      have hok : ok = true := by simpa using h1
      exact ⟨hok ▸ hauth, by simpa using h4, rfl, rfl⟩
  · rintro ⟨hauth, hbody, rfl, rfl⟩
    refine ⟨true, hauth, ?_⟩
    simp [hbody]
    rfl

/-- The token is in the last authorization. -/
theorem authorized_iff {hdrs : List Bytes} : S.authorized (S.collect .empty hdrs) = .ok true ↔
    ∀ t ∈ S.authToken, S.lastValue (str "authorization") hdrs = some (str "Bearer " ++ t) ∧
      ∀ c ∈ t, c.val < 0x80 := by
  unfold authorized
  rw [get_collect]
  cases ht : S.authToken with
  | none => simp
  | some t =>
    have hbearer : (str "Bearer ").all (fun c => c.val < 0x80) = true := by decide +kernel
    have hsome : (S.lastValue (str "authorization") hdrs).getD [] = str "Bearer " ++ t ↔
        S.lastValue (str "authorization") hdrs = some (str "Bearer " ++ t) := by
      cases S.lastValue (str "authorization") hdrs with
      | none => exact iff_of_false (fun h => List.cons_ne_nil _ _ h.symm) (by simp)
      | some v => simp
    simp only [Option.mem_some_iff, forall_eq', compareDigest]
    constructor
    · intro h
      split_ifs at h with hascii
      simp only [Except.ok.injEq, decide_eq_true_eq] at h
      simp only [List.all_append, Bool.and_eq_true, List.all_eq_true, decide_eq_true_eq] at hascii
      exact ⟨hsome.1 h, fun c hc => hascii.2.2 c hc⟩
    · rintro ⟨hv, ht⟩
      have hall : (str "Bearer " ++ t).all (fun c => c.val < 0x80) = true := by
        rw [List.all_append, hbearer, Bool.true_and]
        simpa using ht
      rw [hsome.2 hv, List.all_append, hall, Bool.and_self, if_pos rfl, decide_eq_true rfl]

theorem bodyLength_iff {hdrs : List Bytes} : S.bodyLength (S.collect .empty hdrs) = 0 ↔
    S.text.int ((S.lastValue (str "content-length") hdrs).getD (str "0")) = some 0 := by
  rw [bodyLength, get_collect]
  cases S.text.int ((S.lastValue (str "content-length") hdrs).getD (str "0")) <;> simp

/-- **The requests that reach the handler.** -/
theorem parse_call_iff {input : Bytes} {method path : Str} :
    S.parse ending (lines lf input) = .ok (.call method path) ↔
      ∃ line hdrs tail, S.Request ending input line hdrs tail method path := by
  simp only [parse, bind_ok_iff]
  constructor
  · rintro ⟨line, hread, h⟩
    have hline := readline_eq hread
    split_ifs at h with hnil hsize
    · cases h
    · cases h
    split at h
    · next method' path' version hwords =>
      split_ifs at h with hpath
      · cases h
      obtain ⟨x, hx, h⟩ := bind_ok_iff.1 h
      cases x with
      | inl r => cases h
      | inr x =>
        obtain ⟨headers, rest⟩ := x
        obtain ⟨hdrs, tail, hls, hends, rfl, hlines, hlen, hfields, rfl⟩ :=
          (readHeaders_iff (not_lt.1 hsize)).1 hx
        obtain ⟨hauth, hbody, rfl, rfl⟩ := route_call_iff.1 h
        have htext : lines lf input = line :: hdrs ++ tail := by
          cases hl : lines lf input with
          | nil => exact absurd (hline.trans (by rw [hl]; rfl)) hnil
          | cons l ls =>
            rw [hl] at hline hls
            rw [hline, List.cons_append, ← hls]
            rfl
        have hreadable : Readable ending line := by
          rw [← hline] at hread
          exact ((readline_ok_iff (not_lt.1 hsize)).1 hread).2
        exact ⟨line, hdrs, tail, htext, hends, List.forall_mem_cons.2 ⟨hreadable, hlines⟩, hlen,
          ⟨version, hwords⟩, not_lt.1 hpath, hfields, authorized_iff.1 hauth, bodyLength_iff.1 hbody⟩
    · cases h
  · rintro ⟨line, hdrs, tail, h⟩
    obtain ⟨version, hwords⟩ := h.words
    have hsize : line.length ≤ S.maxHttpHeaders := (Nat.le_add_right _ _).trans h.size
    have hread : S.readline ending line = .ok line :=
      (readline_ok_iff hsize).2 ⟨rfl, h.readable line (by simp)⟩
    have hnil : line ≠ [] := lines_ne_nil (by rw [h.text]; simp)
    refine ⟨line, by rw [h.text]; exact hread, ?_⟩
    rw [if_neg hnil, if_neg (not_lt.2 hsize)]
    simp only [hwords, if_neg (not_lt.2 h.path_short)]
    refine bind_ok_iff.2 ⟨.inr (S.collect .empty hdrs, tail.tail), ?_, ?_⟩
    · refine (readHeaders_iff hsize).2
        ⟨hdrs, tail, by rw [h.text]; rfl, h.ends, rfl, ?_, h.size, h.fields, rfl⟩
      exact fun l hl => h.readable l (List.mem_cons_of_mem _ hl)
    · exact route_call_iff.2 ⟨authorized_iff.2 h.token, bodyLength_iff.2 h.no_body, rfl, rfl⟩

end

/-! ## Reading a response -/

/-- A decimal number. -/
def number (octets : Bytes) : Option ℕ :=
  if octets ≠ [] ∧ octets.all (fun b => 0x30 ≤ b.val && b.val ≤ 0x39) then
    some (undecimal (octets.map fun b => b.val - 0x30))
  else none

/-- The value of the first header line with a name. -/
def field (name : Bytes) (headers : List Bytes) : Option Bytes :=
  (headers.find? fun h => name.isPrefixOf h).map fun h => (h.drop name.length).dropLast.dropLast

/-- What a client reads of a connection: the status, the content type and the body of a response, and
    what follows it. -/
def readResponse (octets : Bytes) : Option (ℕ × Bytes × Bytes × Bytes) :=
  match lines lf octets with
  | [] => none
  | statusLine :: ls => do
    let headers := ls.takeWhile (· ≠ crlf)
    let rest := ((ls.dropWhile (· ≠ crlf)).drop 1).flatten
    let status ← number ((statusLine.drop 9).takeWhile (· ≠ 0x20))
    let ctype ← field (ascii "Content-Type: ") headers
    let length ← (field (ascii "Content-Length: ") headers).bind number
    if length ≤ rest.length then some (status, ctype, rest.take length, rest.drop length) else none

/-- The octets of an ASCII text. -/
def octets (s : Str) : Bytes := s.map fun c => Fin.ofNat _ c.val

/-- ASCII without a line feed. -/
def isPlain (s : Str) : Bool := s.all fun c => c.val < 0x80 && c.val ≠ 0x0a

theorem octets_append (s t : Str) : octets (s ++ t) = octets s ++ octets t := List.map_append

theorem flatMap_utf8_plain {s : Str} (h : isPlain s = true) : s.flatMap CodePoint.utf8 = octets s := by
  induction s with
  | nil => rfl
  | cons c s ih =>
    simp only [isPlain, List.all_cons, Bool.and_eq_true, decide_eq_true_eq] at h
    rw [List.flatMap_cons, ih h.2, CodePoint.utf8, if_pos h.1.1]
    rfl

theorem utf8_plain {s : Str} (h : isPlain s = true) :
    (s ++ str "\r\n").flatMap CodePoint.utf8 = octets s ++ crlf := by
  rw [List.flatMap_append, flatMap_utf8_plain h]
  rfl

theorem isLine_plain {s : Str} (h : isPlain s = true) : IsLine lf (octets s ++ crlf) := by
  refine ⟨octets s ++ [13], ?_, by rw [List.append_assoc]; rfl⟩
  simp only [isPlain, List.all_eq_true, Bool.and_eq_true, decide_eq_true_eq] at h
  rw [List.mem_append, not_or]
  refine ⟨fun hmem => ?_, by decide⟩
  obtain ⟨c, hc, heq⟩ := List.mem_map.1 hmem
  have hval := congrArg Fin.val heq
  obtain ⟨hlt, hne⟩ := h c hc
  rw [Fin.val_ofNat, Nat.mod_eq_of_lt (by omega)] at hval
  exact hne hval

theorem octets_natText (n : ℕ) :
    octets (natText n) = (decimal n).map fun d => Fin.ofNat 256 (0x30 + d) := by
  rw [octets, natText, List.map_map]
  refine List.map_congr_left fun d hd => ?_
  have := decimal_lt hd
  rw [Function.comp_apply, Fin.val_ofNat, Nat.mod_eq_of_lt (by omega)]

theorem isPlain_natText (n : ℕ) : isPlain (natText n) = true := by
  simp only [isPlain, natText, List.all_map, List.all_eq_true]
  intro d hd
  have := decimal_lt hd
  simp only [Function.comp_apply, Fin.val_ofNat, Bool.and_eq_true, decide_eq_true_eq]
  omega

theorem number_natText (n : ℕ) : number (octets (natText n)) = some n := by
  have hdigit : ∀ d ∈ decimal n, (Fin.ofNat 256 (0x30 + d)).val = 0x30 + d := by
    intro d hd
    have := decimal_lt hd
    rw [Fin.val_ofNat, Nat.mod_eq_of_lt (by omega)]
  rw [octets_natText, number, if_pos]
  · rw [List.map_map]
    have hmap : (decimal n).map ((fun b : Byte => b.val - 0x30) ∘ fun d => Fin.ofNat 256 (0x30 + d)) =
        decimal n := by
      refine (List.map_congr_left fun d hd => ?_).trans (List.map_id _)
      rw [Function.comp_apply, hdigit d hd]
      simp
    rw [hmap, undecimal_decimal]
  · refine ⟨by simpa using decimal_ne n, ?_⟩
    simp only [List.all_map, List.all_eq_true, Function.comp_apply]
    intro d hd
    have := decimal_lt hd
    rw [hdigit d hd]
    simp
    omega

theorem isPlain_append (s t : Str) : isPlain (s ++ t) = (isPlain s && isPlain t) := List.all_append

theorem fieldLines_plain (r : Reply) : ∀ line ∈ fieldLines r, isPlain line = true ∧ line ≠ [] := by
  have hctype : isPlain r.ctype.text = true := by cases r.ctype <;> decide +kernel
  have hauth : ∀ line ∈ (if r.status = 401 then [str "WWW-Authenticate: Bearer realm=peerq"] else []),
      isPlain line = true ∧ line ≠ [] := by
    split_ifs
    · exact List.forall_mem_singleton.2 ⟨by decide +kernel, List.cons_ne_nil _ _⟩
    · simp
  refine List.forall_mem_append.2 ⟨List.forall_mem_append.2 ⟨?_, hauth⟩, ?_⟩
  · simp only [List.forall_mem_cons, isPlain_append, hctype, isPlain_natText, Bool.and_true]
    refine ⟨⟨by decide +kernel, List.cons_ne_nil _ _⟩, ⟨by decide +kernel, List.cons_ne_nil _ _⟩,
      ⟨by decide +kernel, List.cons_ne_nil _ _⟩, ⟨by decide +kernel, List.cons_ne_nil _ _⟩,
      ⟨by decide +kernel, List.cons_ne_nil _ _⟩, by simp⟩
  · exact List.forall_mem_singleton.2 ⟨by decide +kernel, List.cons_ne_nil _ _⟩

theorem reason_plain (n : ℕ) : isPlain (reason n) = true := by
  unfold reason
  split <;> decide +kernel

/-- The lines of a response and of what follows. -/
theorem lines_response (r : Reply) (rest : Bytes) : lines lf (response r ++ rest) =
    (octets (str "HTTP/1.1 " ++ natText r.status ++ str " " ++ reason r.status) ++ crlf) ::
      ((fieldLines r).map (fun line => octets line ++ crlf) ++ crlf :: lines lf (r.body ++ rest)) := by
  have hstatus : isPlain (str "HTTP/1.1 " ++ natText r.status ++ str " " ++ reason r.status) = true := by
    rw [isPlain_append, isPlain_append, isPlain_append, isPlain_natText, reason_plain]
    decide +kernel
  have hplain : ∀ line ∈ headerLines r, isPlain line = true := by
    refine List.forall_mem_cons.2 ⟨hstatus, List.forall_mem_append.2 ⟨?_, by simp [isPlain]⟩⟩
    exact fun line hl => (fieldLines_plain r line hl).1
  have hflat : response r ++ rest =
      ((headerLines r).map fun line => octets line ++ crlf).flatten ++ (r.body ++ rest) := by
    rw [response, List.append_assoc, List.flatMap, List.map_congr_left fun line hl =>
      utf8_plain (hplain line hl)]
  rw [hflat, lines_flatten_append, headerLines]
  · simp [octets]
  · intro l hl
    obtain ⟨line, hline, rfl⟩ := List.mem_map.1 hl
    exact isLine_plain (hplain line hline)

theorem number_statusLine (n : ℕ) (tail : Bytes) :
    number (((ascii "HTTP/1.1 " ++ (octets (natText n) ++ 0x20 :: tail)).drop 9).takeWhile
      (· ≠ 0x20)) = some n := by
  have hdigits : ∀ b ∈ octets (natText n), decide (b ≠ 0x20) = true := by
    intro b hb
    rw [octets_natText] at hb
    obtain ⟨d, hd, rfl⟩ := List.mem_map.1 hb
    have := decimal_lt hd
    have hval : (Fin.ofNat 256 (0x30 + d)).val = 0x30 + d := by
      rw [Fin.val_ofNat, Nat.mod_eq_of_lt (by omega)]
    refine decide_eq_true fun heq => ?_
    have := congrArg Fin.val heq
    rw [hval] at this
    exact absurd this (by change ¬ 0x30 + d = 0x20; omega)
  rw [List.drop_left' (by decide +kernel), List.takeWhile_append_of_pos hdigits,
    List.takeWhile_cons_of_neg (by simp), List.append_nil, number_natText]

/-- The value of a header field that is the first one with its name. -/
theorem field_cons (name : Bytes) (value : Bytes) (ls : List Bytes) :
    field name ((name ++ (value ++ crlf)) :: ls) = some value := by
  have hfirst : name.isPrefixOf (name ++ (value ++ crlf)) = true :=
    List.isPrefixOf_iff_prefix.2 (List.prefix_append _ _)
  rw [field, List.find?_cons_of_pos hfirst, Option.map_some, List.drop_left]
  simp [crlf, ascii]

/-- **A response is read back**, and nothing but it. -/
theorem readResponse_response (r : Reply) (rest : Bytes) :
    readResponse (response r ++ rest) = some (r.status, octets r.ctype.text, r.body, rest) := by
  have hmid : ∀ l ∈ (fieldLines r).map (fun line => octets line ++ crlf), decide (l ≠ crlf) = true := by
    intro l hl
    obtain ⟨line, hline, rfl⟩ := List.mem_map.1 hl
    have hne := (fieldLines_plain r line hline).2
    simpa [octets] using hne
  obtain ⟨ls, hls⟩ : ∃ ls, (fieldLines r).map (fun line => octets line ++ crlf) =
      (ascii "Content-Type: " ++ (octets r.ctype.text ++ crlf)) ::
        (ascii "Content-Length: " ++ (octets (natText r.body.length) ++ crlf)) :: ls := by
    have hfirst : fieldLines r = (str "Content-Type: " ++ r.ctype.text) ::
        (str "Content-Length: " ++ natText r.body.length) :: (fieldLines r).drop 2 := rfl
    refine ⟨((fieldLines r).drop 2).map fun line => octets line ++ crlf, ?_⟩
    conv_lhs => rw [hfirst]
    simp only [List.map_cons, octets_append, List.append_assoc]
    rfl
  have hctype : field (ascii "Content-Type: ") ((fieldLines r).map fun line => octets line ++ crlf) =
      some (octets r.ctype.text) := by
    rw [hls, field_cons]
  have hlength : field (ascii "Content-Length: ") ((fieldLines r).map fun line => octets line ++ crlf) =
      some (octets (natText r.body.length)) := by
    have hother : ¬ (ascii "Content-Length: ").isPrefixOf
        (ascii "Content-Type: " ++ (octets r.ctype.text ++ crlf)) = true := by
      rw [Bool.not_eq_true]
      rfl
    rw [hls, field, List.find?_cons_of_neg hother, ← field, field_cons]
  have hstatus := number_statusLine r.status (octets (reason r.status) ++ crlf)
  have hline : octets (str "HTTP/1.1 " ++ natText r.status ++ str " " ++ reason r.status) ++ crlf =
      ascii "HTTP/1.1 " ++ (octets (natText r.status) ++ 0x20 :: (octets (reason r.status) ++ crlf)) := by
    simp only [octets_append, List.append_assoc]
    rfl
  have htake : ((fieldLines r).map (fun line => octets line ++ crlf) ++
      crlf :: lines lf (r.body ++ rest)).takeWhile (· ≠ crlf) =
        (fieldLines r).map fun line => octets line ++ crlf := by
    rw [List.takeWhile_append_of_pos hmid, List.takeWhile_cons_of_neg (by simp), List.append_nil]
  have hdrop : (((fieldLines r).map (fun line => octets line ++ crlf) ++
      crlf :: lines lf (r.body ++ rest)).dropWhile (· ≠ crlf)).drop 1 = lines lf (r.body ++ rest) := by
    rw [List.dropWhile_append_of_pos hmid, List.dropWhile_cons_of_neg (by simp)]
    rfl
  rw [readResponse, lines_response]
  simp only [hline, hstatus, htake, hdrop, hctype, hlength, flatten_lines, Option.bind_some,
    number_natText, Option.bind_eq_bind, List.length_append, Nat.le_add_right, if_true, List.take_left,
    List.drop_left]

end HttpServer

end PeerQ
