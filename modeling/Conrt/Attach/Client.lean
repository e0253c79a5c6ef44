import Conrt.Base.Run
import Conrt.Daemon.Wire

/-! The attached client: one thread sends what it reads from stdin, another prints what the daemon
sends. -/
namespace Conrt.Attach

open Conrt.Daemon (Bytes Frame headerFields)

abbrev Errno := ℕ

def eintr : Errno := 4

def eio : Errno := 5

/-- What `read_frame` has so far. -/
inductive FrameReader
  | header (acc : Bytes)
  | payload (ty : UInt8) (acc : Bytes) (need : ℕ)
deriving DecidableEq

namespace FrameReader

/-- The most bytes its next read may return. -/
def want : FrameReader → ℕ
  | .header acc => 3 - acc.length
  | .payload _ acc need => need - acc.length

/-- A frame without payload is whole with its header. -/
def feed : FrameReader → Bytes → FrameReader ⊕ Frame
  | .header acc, b =>
    match headerFields (acc ++ b) with
    | some (ty, len) => if len = 0 then .inr ⟨ty, []⟩ else .inl (.payload ty [] len)
    | none => .inl (.header (acc ++ b))
  | .payload ty acc need, b =>
    if (acc ++ b).length < need then .inl (.payload ty (acc ++ b) need) else .inr ⟨ty, acc ++ b⟩

end FrameReader

/-- The JSON the client writes and reads: the size of its terminal, whether a response is an accepting
one, the code of an exit frame. -/
structure Codec where
  winSize : UInt16 → UInt16 → Bytes
  accepts : Bytes → Bool
  exitCode : Bytes → Option ℤ

/-- The `run` or `attach` request, and whether the terminal is in raw mode. -/
structure Args where
  request : Bytes
  raw : Bool

/-- Where the main thread is: before a system call of its own, at the end of its loop, or ended before
there was another thread. -/
inductive Main
  | request
  | response (r : FrameReader)
  | measure
  | resize (payload : Bytes)
  | poll
  | read
  | data (b : Bytes)
  | eof
  | joining
  | failed
deriving DecidableEq

inductive Printer
  | unborn
  | reading (r : FrameReader)
  | printing (data : Bytes) (off : ℕ)
  | exited (code : ℤ)
deriving DecidableEq

/-- The threads and the pending SIGWINCH. The rest is not in the source: what was read from stdin, the
frames given to `send_frame` with how many of their bytes were taken, what has come from the daemon and
what has been printed. -/
structure Client where
  main : Main
  printer : Printer
  winch : Bool
  typed : Bytes
  calls : List (Frame × ℕ)
  received : Bytes
  printed : Bytes
deriving DecidableEq

def Client.start : Client := ⟨.request, .unborn, false, [], [], [], []⟩

/-- One system call of either thread, with its result, or a signal. -/
inductive Event
  | write (r : Except Errno ℕ)
  | respond (r : Except Errno Bytes)
  | size (rows cols : UInt16)
  | polled (r : Except Errno (Bool × Bool))
  | stdin (r : Except Errno Bytes)
  | receive (r : Except Errno Bytes)
  | print (r : Except Errno ℕ)
  | winch

def Main.frame (request : Bytes) : Main → Option Frame
  | .request => some ⟨0x00, request⟩
  | .resize payload => some ⟨0x20, payload⟩
  | .data b => some ⟨0x10, b⟩
  | .eof => some ⟨0x11, []⟩
  | _ => none

namespace Client

def loop (c : Client) : Client :=
  { c with
    main := .poll
    printer := if c.printer = .unborn then .reading (.header []) else c.printer }

/-- After a `send_frame`: an error of the request ends the client, one of stdin the loop, and one of
the size or of the last frame is ignored. -/
def afterSend (c : Client) (whole : Bool) : Client :=
  match c.main with
  | .request => { c with main := if whole then .response (.header []) else .failed }
  | .resize _ => c.loop
  | .data _ => { c with main := if whole then .poll else .joining }
  | _ => { c with main := .joining }

/-- `send_frame`: one write, which is an error unless it takes the whole frame. -/
def send (c : Client) (f : Frame) : Except Errno ℕ → Option Client
  | .ok n =>
    if n ≤ f.bytes.length then
      some ({ c with calls := c.calls ++ [(f, n)] }.afterSend (n = f.bytes.length))
    else none
  | .error _ => some ({ c with calls := c.calls ++ [(f, 0)] }.afterSend false)

def respond (codec : Codec) (args : Args) (c : Client) (r : FrameReader) : Except Errno Bytes → Option Client
  | .ok [] | .error _ => some { c with main := .failed }
  | .ok b =>
    if b.length ≤ r.want then
      let c := { c with received := c.received ++ b }
      match r.feed b with
      | .inl r => some { c with main := .response r }
      | .inr f =>
        if f.ty = 0x01 ∧ codec.accepts f.payload then
          some (if args.raw then { c with main := .measure } else c.loop)
        else some { c with main := .failed }
    else none

/-- The pipe between the threads is readable once the reader thread is done. -/
def polled (c : Client) : Except Errno (Bool × Bool) → Option Client
  | .error e =>
    if e = eintr then some (if c.winch then { c with winch := false, main := .measure } else c)
    else some { c with main := .joining }
  | .ok (stdin, notified) =>
    if notified then
      match c.printer with
      | .exited _ => some { c with main := .joining }
      | _ => none
    else some (if stdin then { c with main := .read } else c)

def readStdin (c : Client) : Except Errno Bytes → Option Client
  | .ok [] => some { c with main := .eof }
  | .ok b =>
    if b.length ≤ 4096 then some { c with main := .data b, typed := c.typed ++ b } else none
  | .error e =>
    some { c with main := if e = eintr then .poll else if e = eio then .eof else .joining }

/-- What the reader thread does with a frame. -/
def hear (codec : Codec) (c : Client) (f : Frame) : Client :=
  if f.ty = 0x10 then
    { c with printer := if f.payload = [] then .reading (.header []) else .printing f.payload 0 }
  else if f.ty = 0x02 then { c with printer := .exited ((codec.exitCode f.payload).getD 1) }
  else { c with printer := .exited 1 }

def receive (codec : Codec) (c : Client) (r : FrameReader) : Except Errno Bytes → Option Client
  | .ok [] | .error _ => some { c with printer := .exited 1 }
  | .ok b =>
    if b.length ≤ r.want then
      let c := { c with received := c.received ++ b }
      match r.feed b with
      | .inl r => some { c with printer := .reading r }
      | .inr f => some (hear codec c f)
    else none

def print (c : Client) (data : Bytes) (off : ℕ) : Except Errno ℕ → Option Client
  | .ok n =>
    if n ≤ data.length - off then
      some { c with
        printed := c.printed ++ (data.drop off).take n
        printer := if off + n < data.length then .printing data (off + n) else .reading (.header []) }
    else none
  | .error _ => some { c with printer := .exited 1 }

/-- SIGWINCH is caught from the start of the loop on, if the terminal is in raw mode. -/
def step (codec : Codec) (args : Args) (c : Client) : Event → Option Client
  | .write r =>
    match c.main.frame args.request with
    | some f => c.send f r
    | none => none
  | .respond r =>
    match c.main with
    | .response reader => c.respond codec args reader r
    | _ => none
  | .size rows cols =>
    match c.main with
    | .measure => some { c with main := .resize (codec.winSize rows cols) }
    | _ => none
  | .polled r =>
    match c.main with
    | .poll => c.polled r
    | _ => none
  | .stdin r =>
    match c.main with
    | .read => c.readStdin r
    | _ => none
  | .receive r =>
    match c.printer with
    | .reading reader => c.receive codec reader r
    | _ => none
  | .print r =>
    match c.printer with
    | .printing data off => c.print data off r
    | _ => none
  | .winch => if args.raw ∧ c.printer ≠ .unborn then some { c with winch := true } else none

/-- The bytes the daemon can read. -/
def sent (c : Client) : Bytes := c.calls.flatMap fun call => call.1.bytes.take call.2

/-- The frames of which some byte has been taken. -/
def frames (c : Client) : List Frame := (c.calls.filter fun call => 0 < call.2).map Prod.fst

/-- The main thread is out of its loop, and sends nothing more. -/
def left (c : Client) : Bool := c.main = .joining || c.main = .failed

end Client

/-- What the data frames among some carry. -/
def dataOf (fs : List Frame) : Bytes :=
  (fs.filter fun f => f.ty = 0x10).flatMap Frame.payload

/-- The write of a size frame takes a part of it. -/
def Client.cuts (c : Client) : Event → Bool
  | .write (.ok n) =>
    match c.main with
    | .resize payload => 0 < n && n < (Frame.mk 0x20 payload).bytes.length
    | _ => false
  | _ => false

end Conrt.Attach
