import TinyGoDriver.Go.Bufio
import TinyGoDriver.Zstd.Decoder

/-!
# Reading a stream

`Reader` decodes a stream as content is asked for.  `next` advances it by one step: a frame
header, a block, or the end of a frame.  Decoded content stands in `hist`, and what lies
before `pos` there has been read already; it is kept as far as later blocks may copy from it.

`Stream` holds what `next` works on, and `Reader` adds to it what belongs to `Read`.
-/

namespace Zstd

open GoRt

/-- What reading may end with. -/
inductive ReaderErr where
  | eof
  | closed
  | nilReader
  | noProgress
  | decode (e : Err)
  deriving DecidableEq, Repr

/-- The errors of the input, as they come out of a `Reader`. -/
def ReaderErr.ofInput : ReadErr → ReaderErr
  | .eof => .eof
  | .unexpectedEOF => .decode .unexpectedEOF
  | .noProgress => .noProgress

def readBufferSize : ℕ := 4096

/-- The size of the longest frame header. -/
def maxFrameHeader : ℕ := 14

inductive ReadState where
  | readFrame
  | readBlock
  | readFrameEnd
  deriving DecidableEq, Repr

/-- What `next` works on.  The capacities of `hist` and of the block buffer are kept; what a
buffer holds beyond its length is not, since it is written before it is read. -/
structure Stream where
  d : Decoder
  input : Option Bufio
  state : ReadState
  hist : List UInt8
  histCap : ℕ
  pos : ℕ
  blockCap : ℕ

abbrev StreamM : Type → Type := GoM ReaderErr Stream

namespace Stream

def setInput (z : Stream) (b : Bufio) : Stream := { z with input := some b }

/-! ### The steps -/

/-- A call on the input. -/
def onInput {α : Type} (x : GoM ReadErr Bufio α) : StreamM α :=
  GoM.on Stream.input Stream.setInput ReaderErr.ofInput x

/-- A decoding step, which keeps no state. -/
def decode {α : Type} (x : Go Err α) : StreamM α := fun z =>
  match x with
  | .ok a => .ok a z
  | .error e => .error (e.map .decode) z

/-- `unexpected`, applied to the error of `x`. -/
def unexpected {α : Type} (x : StreamM α) : StreamM α := fun z =>
  match x z with
  | .error (.fail .eof) z' => .error (.fail (.decode .unexpectedEOF)) z'
  | r => r

/-- `io.ReadFull(z.in, z.hdr[lo:hi])`. -/
def readHdr (lo hi : ℕ) : StreamM (List UInt8) :=
  if lo ≤ hi ∧ hi ≤ maxFrameHeader then
    onInput (Bufio.readFull (hi - lo))
  else
    GoM.call (.error .panic)

/-- The loop of `skip`. -/
def skipLoop : ℕ → ℕ → StreamM Unit
  | 0, _ => GoM.call (.error .diverge)
  | fuel + 1, n =>
    if 0 < n then do
      unexpected (onInput (Bufio.discard (min n (2 ^ 20))))
      skipLoop fuel (n - min n (2 ^ 20))
    else
      pure ()

def skip (n : ℕ) : StreamM Unit := skipLoop (n + 1) n

/-- The end of `readFrameHeader`.  The history starts over. -/
def startFrame (h : FrameParams) : StreamM Unit := do
  let z ← get
  let d ← decode (z.d.beginFrame h)
  set { z with d := d, hist := [], pos := 0, state := .readBlock }

/-- The part of `readFrameHeader` after the magic number of a frame. -/
def readParams : StreamM Unit := do
  let fhd ← unexpected (readHdr 0 1)
  let first ← decode (idx fhd 0)
  let rest ← unexpected (readHdr 1 (frameHeaderSize first.toNat))
  let (h, _) ← decode (parseFrameParams (fhd ++ rest))
  startFrame h

def readFrameHeader : StreamM Unit := do
  let word ← readHdr 0 4
  let magic ← decode (leAt 4 word 0)
  if magic &&& skippableMagicMask = skippableMagic then do
    let word ← unexpected (readHdr 0 4)
    let n ← decode (leAt 4 word 0)
    skip n
  else if magic ≠ frameMagic then
    GoM.fail (.decode .badMagic)
  else
    readParams

/-- The end of `makeRoom`, which slides the last window to the front. -/
def slide (z : Stream) : Stream :=
  let keep := min z.hist.length z.d.window
  { z with hist := z.hist.drop (z.hist.length - keep), pos := keep }

/-- `makeRoom`.  It panics if it asks for less room than it needs for what it has. -/
def makeRoom (z : Stream) : Go ReaderErr Stream :=
  let need := z.d.blockMax
  if need ≤ z.histCap - z.hist.length then
    .ok z
  else
    let limit := 2 * z.d.window + need
    if z.histCap < limit then
      let grown := min limit (max (max (2 * z.histCap) (z.hist.length + need)) (64 * 2 ^ 10))
      if grown < z.hist.length then
        .error .panic
      else
        let z := { z with histCap := grown }
        if need ≤ grown - z.hist.length then .ok z else .ok z.slide
    else
      .ok z.slide

/-- The room for payloads, after making room for one. -/
def growBlock (z : Stream) (payload : ℕ) : Stream :=
  if z.blockCap < payload then { z with blockCap := max payload z.d.blockMax } else z

/-- Decodes one block at the end of `hist`, and accounts for it.  Content from a block that
failed is cut off again. -/
def decodeBlock (reload : Bool) (typ size : ℕ) (block : List UInt8) : StreamM Unit := fun z =>
  match Zstd.decodeBlock reload typ size block ⟨z.d, z.hist, z.hist.length⟩ with
  | .ok _ s => .ok () { z with d := s.d, hist := s.out, histCap := max z.histCap s.out.length }
  | .error e s =>
    .error (e.map .decode) { z with
      d := s.d
      hist := s.out.take z.hist.length
      histCap := max z.histCap s.out.length }

/-- The part of `readBlock` after the header. -/
def readPayload (reload : Bool) (typ size : ℕ) (last : Bool) : StreamM Unit := do
  let payload := blockPayloadSize typ size
  modify (·.growBlock payload)
  let block ← unexpected (onInput (Bufio.readFull payload))
  let z ← get
  let z ← GoM.call z.makeRoom
  set z
  decodeBlock reload typ size block
  if last then modify fun z => { z with state := .readFrameEnd } else pure ()

def readBlock (reload : Bool) : StreamM Unit := do
  let header ← unexpected (readHdr 0 3)
  let z ← get
  let (typ, size, last) ← decode (z.d.parseBlockHeader header)
  readPayload reload typ size last

/-- The checksum at the end of a frame, if it carries one. -/
def readSum : StreamM (List UInt8) := do
  let z ← get
  if z.d.frame.checksum then unexpected (readHdr 0 4) else pure []

def readFrameEnd : StreamM Unit := do
  let sum ← readSum
  let z ← get
  decode (z.d.endFrame sum)
  set { z with state := .readFrame }

def next (reload : Bool) : StreamM Unit := do
  let z ← get
  match z.state with
  | .readFrame => readFrameHeader
  | .readBlock => readBlock reload
  | .readFrameEnd => readFrameEnd

/-- How many steps the stream can take: each reads something, except the end of a frame. -/
def steps (z : Stream) : ℕ :=
  2 * (z.input.elim 0 (·.pending.length)) + if z.state = .readFrameEnd then 1 else 0

end Stream

/-! ### Reading -/

/-- A `Reader`. -/
structure Reader where
  stream : Stream
  total : ℤ
  err : Option ReaderErr
  closed : Bool

abbrev ReaderM : Type → Type := GoM ReaderErr Reader

namespace Reader

/-- `Reset`; the reader `r` may be nil. -/
def reset (z : Reader) (r : Option Source) : Reader :=
  match r with
  | none => { z with err := some .nilReader }
  | some src =>
    { stream := { z.stream with
        input := some (Bufio.newReaderSize src readBufferSize)
        state := .readFrame
        hist := []
        pos := 0 }
      total := 0
      err := none
      closed := false }

/-- `&Reader{}`. -/
def new : Reader := ⟨⟨Decoder.new, none, .readFrame, [], 0, 0, 0⟩, 0, none, false⟩

/-- Sets up the decoder of a `Reader`. -/
def configure (z : Reader) (options : DecoderOptions) : Reader :=
  { z with stream := { z.stream with d := z.stream.d.configure options } }

def close (z : Reader) : Reader :=
  { z with
    closed := true
    stream := { z.stream with
      input := none, hist := [], histCap := 0, blockCap := 0,
      d := { z.stream.d with lits := [] } } }

/-- `z.err = z.next()`. -/
def advance (reload : Bool) : ReaderM Unit := fun z =>
  match Stream.next reload z.stream with
  | .ok _ s => .ok () { z with stream := s }
  | .error (.fail e) s => .ok () { z with stream := s, err := some e }
  | .error f s => .error f { z with stream := s }

/-- The loop of `Read`, where the buffer has the length `n`.  It tells whether there is content
to hand out. -/
def fetch (reload : Bool) (n : ℕ) : ℕ → ReaderM Bool
  | 0 => GoM.call (.error .diverge)
  | fuel + 1 => do
    let z ← get
    if z.stream.pos = z.stream.hist.length then
      match z.err with
      | some e => GoM.fail e
      | none =>
        if n = 0 then
          pure false
        else do
          advance reload
          fetch reload n fuel
    else
      pure true

/-- The end of `Read`: hands out content, as far as the output limit allows. -/
def deliver (n : ℕ) : ReaderM (List UInt8) := do
  let z ← get
  let avail ← GoM.call (slice z.stream.hist z.stream.pos z.stream.hist.length)
  let limit := z.stream.d.maxOutput
  if 0 < limit ∧ limit - z.total ≤ 0 then
    GoM.fail (.decode .outputTooLarge)
  else
    let avail := if 0 < limit then avail.take (limit - z.total).toNat else avail
    let p := avail.take n
    set { z with
      stream := { z.stream with pos := z.stream.pos + p.length }
      total := z.total + p.length }
    pure p

/-- `Read(p)` where `p` has the length `n`: the bytes read, or the error. -/
def read (reload : Bool) (n : ℕ) : ReaderM (List UInt8) := do
  let z ← get
  if z.closed then
    GoM.fail .closed
  else do
    let more ← fetch reload n (z.stream.steps + 3)
    if more then deliver n else pure []

end Reader

def newReader (r : Option Source) (options : List (Option DecoderOption)) :
    Except Err Reader :=
  let resolved := resolveDecoderOptions options
  match resolved.err with
  | some e => .error e
  | none => .ok ((Reader.new.configure resolved).reset r)

end Zstd
