import Ollama.Lib.Strings
import Ollama.Lib.Utf8
import Ollama.Parser.Modelfile

/-!
# A completion

`Completion` of `llm/server.go`: it makes a request of its options, puts a limit on `NumPredict`, sends the request to
the runner, and calls `fn` with what it reads of the stream of lines that the runner answers with. What is outside is
given with a call: what the semaphore, the runner and the JSON encoder return, and what a line is decoded to. The
context is not cancelled, so that `ctx.Err()` is nil. The parameters of the sampler are left out of the request.
-/

namespace Ollama.Llm

open Lib Utf8

/-! ## Requests -/

/-- `api.Options`, without the parameters of the sampler. -/
structure CompletionOptions where
  numPredict : Int
  numKeep : Int
  stop : List Bytes
  deriving DecidableEq

/-- `CompletionRequest`. -/
structure CompletionRequest where
  prompt : Bytes
  format : Bytes
  images : List (Bytes × Int)
  options : CompletionOptions

/-- The grammar of a request: `grammarJSON`, or one made of a JSON schema. -/
inductive Grammar where
  | json
  | schema (g : Bytes)
  deriving DecidableEq

/-- `request`: what is sent to the runner. -/
structure RunnerRequest where
  prompt : Bytes
  nPredict : Int
  nKeep : Int
  stop : List Bytes
  imageData : List (Bytes × Int)
  cachePrompt : Bool
  format : Option Bytes := none
  grammar : Option Grammar := none

/-- `llmServer`. -/
structure LlmServer where
  textProcessor : Bool
  numCtx : Int
  lastErrMsg : Bytes

/-- `ServerStatus`. -/
inductive ServerStatus where
  | ready
  | noSlotsAvailable
  | loadingModel
  | notResponding
  | error
  deriving DecidableEq

/-- The errors of `Completion`. -/
inductive CompletionErr where
  /-- "invalid format: %q; expected \"json\" or a valid JSON Schema object" -/
  | invalidFormat (format : Bytes)
  /-- "invalid JSON schema in format" -/
  | invalidSchema
  /-- the error of `Acquire` -/
  | acquire (err : Bytes)
  /-- the error of `getServerStatusRetry` -/
  | serverStatus (err : Bytes)
  /-- "unexpected server status: %s" -/
  | unexpectedStatus (status : ServerStatus)
  /-- "failed to marshal data: %v" -/
  | marshal (err : Bytes)
  /-- "error creating POST request: %v" -/
  | newRequest (err : Bytes)
  /-- "POST predict: %v" -/
  | post (err : Bytes)
  /-- "failed reading llm error response: %w" -/
  | readResponse (err : Bytes)
  /-- the body of a response with an error -/
  | response (body : Bytes)
  /-- "error unmarshalling llm prediction response: %v" -/
  | unmarshal (err : Bytes)
  /-- "an error was encountered while running the model: %s" -/
  | running (msg : Bytes)
  /-- "error reading llm response: %v" -/
  | reading (err : Bytes)
  deriving DecidableEq

/-- `http.Response`: its body as text, for a response with an error, and as lines with the error of the reader at
their end. -/
structure Response where
  statusCode : Nat
  readAll : Except Bytes Bytes
  lines : List Bytes
  err : Option Bytes

/-- What is outside of a call of `Completion`. -/
structure Outside where
  schemaToGrammar : Bytes → Option Bytes
  acquire : Option Bytes
  getServerStatusRetry : Except Bytes ServerStatus
  encode : RunnerRequest → Option Bytes
  newRequest : Option Bytes
  post : RunnerRequest → Except Bytes Response

/-- The request with its format. -/
def withFormat (out : Outside) (s : LlmServer) (format : Bytes) (request : RunnerRequest) :
    Except CompletionErr RunnerRequest :=
  if format = [] ∨ format = ascii "null" ∨ format = ascii "\"\"" then .ok request
  else if s.textProcessor then .ok { request with format := some format }
  else if format = ascii "\"json\"" then .ok { request with grammar := some .json }
  else if format.head? ≠ some 0x7b then .error (.invalidFormat format)
  else
    match out.schemaToGrammar format with
    | none => .error .invalidSchema
    | some g => .ok { request with grammar := some (.schema g) }

/-- The request as it is first made of the options. -/
def newRequest (req : CompletionRequest) : RunnerRequest :=
  { prompt := req.prompt
    nPredict := req.options.numPredict
    nKeep := req.options.numKeep
    stop := req.options.stop
    imageData := req.images
    cachePrompt := true }

/-- The upper limit on `NumPredict`. -/
def limitNumPredict (s : LlmServer) (options : CompletionOptions) : CompletionOptions :=
  if options.numPredict < 0 ∨ options.numPredict > 10 * s.numCtx then { options with numPredict := 10 * s.numCtx }
    else options

/-- What comes before the request is sent: the options as they are left, and the request. -/
def compose (out : Outside) (s : LlmServer) (req : CompletionRequest) :
    CompletionOptions × Except CompletionErr RunnerRequest :=
  match withFormat out s req.format (newRequest req) with
  | .error err => (req.options, .error err)
  | .ok request =>
    match out.acquire with
    | some err => (req.options, .error (.acquire err))
    | none =>
      -- the request has been made of the options before
      let options := limitNumPredict s req.options
      match out.getServerStatusRetry with
      | .error err => (options, .error (.serverStatus err))
      | .ok status =>
        if status ≠ .ready then (options, .error (.unexpectedStatus status))
        else
          match out.encode request, out.newRequest with
          | some err, _ => (options, .error (.marshal err))
          | none, some err => (options, .error (.newRequest err))
          | none, none => (options, .ok request)

/-- What comes before the stream: the options as they are left, with the request that was sent and the response to it. -/
def prepare (out : Outside) (s : LlmServer) (req : CompletionRequest) :
    CompletionOptions × Except CompletionErr (RunnerRequest × Response) :=
  let sent := compose out s req
  (sent.1,
    match sent.2 with
    | .error err => .error err
    | .ok request =>
      match out.post request with
      | .error err => .error (.post err)
      | .ok res =>
        if res.statusCode ≥ 400 then
          match res.readAll with
          | .error err => .error (.readResponse err)
          | .ok body => .error (.response body)
        else .ok (request, res))

/-! ## The stream -/

/-- `completion`: a line of the stream. The times are the bits of floats. -/
structure Completion where
  content : List Char
  stop : Bool
  stoppedLimit : Bool
  predictedN : Int
  predictedMS : UInt64
  promptN : Int
  promptMS : UInt64
  deriving DecidableEq

/-- `CompletionResponse`. -/
structure CompletionResponse where
  content : List Char := []
  doneReason : Bytes := []
  done : Bool := false
  promptEvalCount : Int := 0
  promptEvalDuration : Int := 0
  evalCount : Int := 0
  evalDuration : Int := 0
  deriving DecidableEq

/-- How lines and times are decoded: by `json.Unmarshal` and `parseDurationMs`. -/
structure Decoding where
  unmarshal : Bytes → Except Bytes Completion
  parseDurationMs : UInt64 → Int

/-- `maxBufferSize`. -/
def maxBufferSize : Nat := 512 * 1000

/-- `dropCR` of the scanner. -/
def dropCR (line : Bytes) : Bytes := if line.getLast? = some 0x0d then line.dropLast else line

/-- A line of the stream: nothing of a blank one. The scanner fails on a line that its buffer has no room for. -/
def readLine (d : Decoding) (line : Bytes) : Except CompletionErr (Option Completion) :=
  if maxBufferSize ≤ line.length then .error (.reading (ascii "bufio.Scanner: token too long"))
  else if (dropCR line).length = 0 then .ok none
  else
    match d.unmarshal (if (ascii "data: ").isPrefixOf (dropCR line) then (dropCR line).drop 6 else dropCR line) with
    | .error err => .error (.unmarshal err)
    | .ok c => .ok (some c)

/-- The last response. -/
def doneResponse (d : Decoding) (c : Completion) : CompletionResponse :=
  { done := true
    doneReason := if c.stoppedLimit then ascii "length" else ascii "stop"
    promptEvalCount := c.promptN
    promptEvalDuration := d.parseDurationMs c.promptMS
    evalCount := c.predictedN
    evalDuration := d.parseDurationMs c.predictedMS }

/-- What follows the loop. -/
def scannerErr (s : LlmServer) (err : Option Bytes) : Option CompletionErr :=
  match err with
  | none => none
  | some err =>
    if (index (ascii "unexpected EOF") err).isSome ∨ (index (ascii "forcibly closed") err).isSome then
      some (.running (if s.lastErrMsg ≠ [] then s.lastErrMsg else err))
    else some (.reading err)

/-- The loop over the lines, with the error of the reader at their end: what is returned, and the calls of `fn`. -/
def streamLoop (d : Decoding) (s : LlmServer) (err : Option Bytes) :
    List Bytes → (lastToken : List Char) → (tokenRepeat : Nat) → Option CompletionErr × List CompletionResponse
  | [], _, _ => (scannerErr s err, [])
  | line :: lines, lastToken, tokenRepeat =>
    match readLine d line with
    | .error e => (some e, [])
    | .ok none => streamLoop d s err lines lastToken tokenRepeat
    | .ok (some c) =>
      let token := Parser.trimSpace c.content
      let tokenRepeat := if token = lastToken then tokenRepeat + 1 else 0
      -- `ctx.Err()` is returned
      if tokenRepeat > 30 then (none, [])
      else
        let sent := if c.content ≠ [] then [{ content := c.content }] else []
        if c.stop then (none, sent ++ [doneResponse d c])
        else
          let rest := streamLoop d s err lines token tokenRepeat
          (rest.1, sent ++ rest.2)

/-- `Completion`: what is returned, and the calls of `fn`. -/
def LlmServer.completion (out : Outside) (d : Decoding) (s : LlmServer) (req : CompletionRequest) :
    Option CompletionErr × List CompletionResponse :=
  match (prepare out s req).2 with
  | .error err => (some err, [])
  | .ok (_, res) => streamLoop d s res.err res.lines [] 0

end Ollama.Llm
