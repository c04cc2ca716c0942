import Mathlib.Data.List.DropRight

/-!
# Responses on a connection

What the transport reads of a response head, and its test whether the connection can carry
another request after the response.  A connection carries the responses as a sequence of
tokens: a response head counts as one of them, a byte of a body as one, and so does what ends
a chunked body.

`http.ReadResponse` is taken to read one head, and to know from the head and from the method of
the request how the body is delimited, which `framing` states.
-/

namespace Https

/-! ### Header values -/

/-- The letter that stands for a character in `strings.EqualFold`, as far as ASCII goes: besides
the capitals, the long s and the Kelvin sign fold to ASCII letters. -/
def foldChar (c : Char) : Char :=
  if 'A' ≤ c ∧ c ≤ 'Z' then Char.ofNat (c.toNat + 32)
  else if c.toNat = 0x17F then 's'
  else if c.toNat = 0x212A then 'k'
  else c

/-- `strings.EqualFold`, where one of the two is ASCII. -/
def equalFold (s t : List Char) : Bool := s.map foldChar == t.map foldChar

/-- `unicode.IsSpace`. -/
def isSpace (c : Char) : Bool :=
  let n := c.toNat
  (9 ≤ n && n ≤ 13) || n == 0x20 || n == 0x85 || n == 0xA0 || n == 0x1680
    || (0x2000 ≤ n && n ≤ 0x200A) || n == 0x2028 || n == 0x2029 || n == 0x202F || n == 0x205F
    || n == 0x3000

/-- `strings.TrimSpace`. -/
def trimSpace (s : List Char) : List Char := (s.dropWhile isSpace).rdropWhile isSpace

/-- `hasToken`: a comma-separated header value carries the token. -/
def hasToken (value token : List Char) : Bool :=
  (value.splitOn ',').any fun field => equalFold (trimSpace field) token

/-! ### Response heads -/

/-- The fields of an `http.Response` that the transport reads. -/
structure Head where
  statusCode : ℕ
  protoMajor : ℕ
  protoMinor : ℕ
  close : Bool
  /-- the header `Connection` -/
  connection : List Char
  /-- negative if it is not known -/
  contentLength : ℤ
  transferEncoding : List (List Char)
  deriving DecidableEq, Repr

/-- `bodyless`: the status line alone ends the response. -/
def bodyless (method : List Char) (resp : Head) : Bool :=
  equalFold method "HEAD".toList
    || (100 ≤ resp.statusCode && resp.statusCode < 200)
    || resp.statusCode == 204 || resp.statusCode == 304

/-- One of the transfer encodings is `chunked`. -/
def Head.chunked (resp : Head) : Bool :=
  resp.transferEncoding.any fun te => equalFold te "chunked".toList

/-- `reusableResponse`: the connection can carry another request after this response. -/
def reusableResponse (method : List Char) (resp : Head) : Bool :=
  if resp.close || resp.protoMajor < 1 || (resp.protoMajor == 1 && resp.protoMinor == 0) then false
  else if hasToken resp.connection "close".toList then false
  else if bodyless method resp then true
  else if 0 ≤ resp.contentLength then true
  else resp.chunked

/-! ### Framing -/

/-- What is left of a body, by what ends it. -/
inductive Framing where
  /-- so many bytes -/
  | length (n : ℕ)
  | chunked
  /-- up to the end of the connection -/
  | untilClose
  deriving DecidableEq, Repr

/-- How the body of a response is delimited, as `http.ReadResponse` takes it and as the server
means it.  Unlike `bodyless` it compares the method exactly. -/
def framing (method : List Char) (resp : Head) : Framing :=
  if method = "HEAD".toList ∨ (100 ≤ resp.statusCode ∧ resp.statusCode < 200)
      ∨ resp.statusCode = 204 ∨ resp.statusCode = 304 then .length 0
  else if resp.chunked then .chunked
  else if 0 ≤ resp.contentLength then .length resp.contentLength.toNat
  else .untilClose

/-- What a server sends on a connection. -/
inductive Token where
  /-- a response head, with the number of the request that it answers -/
  | head (owner : ℕ) (resp : Head)
  /-- a byte of a body -/
  | data
  /-- the end of a chunked body, with its trailers -/
  | last
  deriving DecidableEq, Repr

/-- The body, where the framing leaves its size open a body of so many bytes. -/
def Framing.tokens (payload : ℕ) : Framing → List Token
  | .length n => List.replicate n .data
  | .chunked => List.replicate payload .data ++ [.last]
  | .untilClose => List.replicate payload .data

/-- What a conforming server answers to a request: any number of interim responses, and then
the final one with its body. -/
structure Reply where
  interims : List Head
  final : Head
  payload : ℕ
  interim : ∀ resp ∈ interims, 100 ≤ resp.statusCode ∧ resp.statusCode < 200
  isFinal : 200 ≤ final.statusCode

/-- The reply on the connection, to the request of the number `owner`. -/
def Reply.tokens (reply : Reply) (owner : ℕ) (method : List Char) : List Token :=
  reply.interims.map (.head owner)
    ++ .head owner reply.final :: (framing method reply.final).tokens reply.payload

/-- What may still come of a body with this left of it: the bytes that are there are the
beginning of what is missing. -/
def Framing.Fits : Framing → List Token → Prop
  | .length n, stream => stream.length ≤ n
  | .chunked, stream => ∃ payload, stream <+: List.replicate payload .data ++ [.last]
  | .untilClose, _ => True

theorem Framing.Fits.of_tokens {f : Framing} {payload : ℕ} {stream : List Token}
    (h : stream <+: f.tokens payload) :
  f.Fits stream
  := by
  cases f with
  | length n => simpa [Fits, tokens] using h.length_le
  | chunked => exact ⟨payload, h⟩
  | untilClose => trivial

theorem Framing.Fits.mono {f : Framing} {stream stream' : List Token} (h : f.Fits stream)
    (hle : stream' <+: stream) :
  f.Fits stream'
  := by
  cases f with
  | length n => exact hle.length_le.trans h
  | chunked =>
    obtain ⟨payload, h⟩ := h
    exact ⟨payload, hle.trans h⟩
  | untilClose => trivial

end Https
