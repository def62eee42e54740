import Imgdl.Http

/-!
# Executing a request

`executeWithRedirects` is the loop of one `execute_request` call : it sends a request
for the current URL, follows same-host redirects on the same connection, and stops with
a response, an error, or a redirect to another host. `onResponse` is the body of the
loop after a response head arrived.

The replies are a list, one for each request. A request past the end of the list is
never answered, so every prefix of a server's behaviour is an input. The result comes
with the URLs of the requests that were built for the connection, in order. The last of them
may not have left : `send_request` is called once `ready()` is over, and a sender that is not
ready (`Reply.notReady`), or never becomes so, is not handed the request.
-/

namespace Imgdl

/-- The part of the configuration one request reads. -/
structure RequestConfig where
  userAgent : String
  maxRedirects : UInt8
  deriving DecidableEq, Repr

/-- Data returned from a successful request. -/
structure ResponseData where
  bytes : Bytes
  headers : HeaderMap
  deriving DecidableEq, Repr

/-- A redirect the caller must follow on a connection of the new host. -/
structure CrossHostRedirect where
  newUri : Uri
  redirectsRemaining : UInt8
  deriving DecidableEq, Repr

/-- A response, or a cross-host redirect. -/
inductive TransportResult where
  | response (data : ResponseData)
  | redirect (redir : CrossHostRedirect)
  deriving DecidableEq, Repr

/-- Where a request loop stands : waiting for the server, unwound by a panic, or done. -/
inductive Progress where
  | pending
  | panicked
  | done (result : Except DownloadError TransportResult)

/-- What the loop does after a response head. -/
inductive Hop where
  | follow (url : Uri) (redirects : UInt8)
  | stop (p : Progress)

/-- The statuses the loop treats as redirects. -/
def isRedirectStatus (status : ℕ) : Bool :=
  status = 301 || status = 302 || status = 307 || status = 308

/-- `StatusCode::is_success`. -/
def isSuccess (status : ℕ) : Bool :=
  200 ≤ status && status < 300

/-- Resolve a `Location` header value against the current URL. -/
def resolveRedirect (http : Http) (current : Uri) (location : String) :
    Except DownloadError Uri :=
  let relative := match http.parsePathAndQuery location with
    | .error e => .error (.connectionFailed s!"invalid redirect location '{location}': {e}")
    | .ok newPq =>
      match http.fromParts { current with pathAndQuery := some newPq } with
      | .error e => .error (.connectionFailed s!"failed to construct redirect URI: {e}")
      | .ok uri => .ok uri
  match http.parseUri location with
  | .ok uri => if uri.scheme.isSome then .ok uri else relative
  | .error _ => relative

/-- `Retry-After` in whole seconds. -/
def parseRetryAfter (headers : HeaderMap) : Option Duration := do
  let v ← headers.get "retry-after"
  let s ← HeaderValue.toStr v
  let n ← parseUnsigned (2 ^ 64) s
  return Duration.fromSecs n

variable (http : Http) (overflowChecks : Bool) (config : RequestConfig) (host : String)

/-- The loop body after a response head, with the `u8` hop counter `redirects`. -/
def onResponse (currentUrl : Uri) (redirects : UInt8) (r : HttpResponse) : Hop :=
  if isRedirectStatus r.status then
    -- `redirects += 1` : a panic with overflow checks, a wrap to 0 without them
    if overflowChecks ∧ redirects = 255 then .stop .panicked
    else if redirects + 1 > config.maxRedirects then
      .stop (.done (.error (.tooManyRedirects s!"exceeded {config.maxRedirects} redirects")))
    else match r.headers.get "location" with
      | none =>
        .stop (.done (.error (.connectionFailed "redirect response missing Location header")))
      | some v => match HeaderValue.toStr v with
        | none => .stop (.done (.error (.connectionFailed
            "invalid Location header: failed to convert header to a str")))
        | some location =>
          -- the drained body is ignored, but the loop waits for its end
          if r.body = .stalled then .stop .pending
          else match resolveRedirect http currentUrl location with
            | .error e => .stop (.done (.error e))
            | .ok resolved =>
              if !eqIgnoreAsciiCase (resolved.host.getD "") host then
                .stop (.done (.ok (.redirect ⟨resolved, config.maxRedirects - (redirects + 1)⟩)))
              else .follow resolved (redirects + 1)
  else if !isSuccess r.status then
    match r.body with
    | .stalled => .stop .pending
    | .failed e => .stop (.done (.error (.connectionFailed s!"failed to read error body: {e}")))
    | .bytes b => .stop (.done (.error (.httpStatus r.status
        (String.ofList ((fromUtf8Lossy b.length b).take 200)) (parseRetryAfter r.headers))))
  else
    match r.body with
    | .stalled => .stop .pending
    | .failed e => .stop (.done (.error (.connectionFailed s!"failed to read response body: {e}")))
    | .bytes b => .stop (.done (.ok (.response ⟨b, r.headers⟩)))

/-- The request loop from `currentUrl`, with the URLs of the requests it built. All of them are
handed to the connection, save the last one if the loop ends in `ready()`. -/
def executeWithRedirects : List Reply → Uri → UInt8 → List Uri × Progress
  | replies, currentUrl, redirects =>
    match http.requestError (currentUrl.pathAndQuery.getD "/") host config.userAgent with
    | some e => ([], .done (.error (.connectionFailed s!"failed to build request: {e}")))
    | none => match replies with
      | [] => ([currentUrl], .pending)
      | .notReady e :: _ =>
        ([currentUrl], .done (.error (.connectionFailed s!"sender not ready: {e}")))
      | .sendFailed e :: _ =>
        ([currentUrl], .done (.error (.connectionFailed s!"send failed: {e}")))
      | .response r :: rest =>
        match onResponse http overflowChecks config host currentUrl redirects r with
        | .stop p => ([currentUrl], p)
        | .follow url redirects =>
          let (sent, p) := executeWithRedirects rest url redirects
          (currentUrl :: sent, p)

/-- Execute a single GET request. The request timeout ends a loop that waits for the
server; `none` is a panic. -/
def executeRequest (replies : List Reply) (url : Uri) :
    List Uri × Option (Except DownloadError TransportResult) :=
  let (sent, p) := executeWithRedirects http overflowChecks config host replies url 0
  (sent, match p with
    | .pending => some (.error .timeout)
    | .panicked => none
    | .done result => some result)

end Imgdl
