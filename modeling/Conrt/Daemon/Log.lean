import Conrt.Daemon.Wire

/-! A container's log: the ring of cached lines, line assembly, and the pipes that follow it. -/
namespace Conrt.Daemon

def newline : UInt8 := 10

def logCapacity : ℕ := 65536

def writeChunkPayload : ℕ := 65535

structure LogCache where
  buf : Bytes
  start : ℕ
  fin : ℕ
  bytes : ℕ
deriving DecidableEq

namespace LogCache

def new (cap : ℕ) : LogCache := { buf := List.replicate cap 0, start := 0, fin := 0, bytes := 0 }

/-- The scan for the newline that ends the oldest line, in at most `fuel` steps around the ring. -/
def findNewline (c : LogCache) : ℕ → ℕ → Option ℕ
  | 0, _ => none
  | fuel + 1, i =>
    match c.buf[i]? with
    | none => none
    | some b => if b = newline then some i else findNewline c fuel ((i + 1) % c.buf.length)

/-- Drops the oldest line; `none` where the source would scan forever or subtract below zero. -/
def evict (c : LogCache) : Option LogCache := do
  let i ← c.findNewline (c.buf.length + 1) c.start
  let lineBytes := if c.start ≤ i then i - c.start + 1 else (c.buf.length - c.start) + i + 1
  guard (lineBytes ≤ c.bytes)
  pure { c with start := (c.start + lineBytes) % c.buf.length, bytes := c.bytes - lineBytes }

/-- Drops old lines until `need` bytes are free. -/
def makeRoom (c : LogCache) (need : ℕ) : ℕ → Option LogCache
  | 0 => none
  | fuel + 1 =>
    if need ≤ c.buf.length - c.bytes then some c
    else do
      let c ← c.evict
      c.makeRoom need fuel

def append (c : LogCache) (b : UInt8) : LogCache :=
  { c with buf := c.buf.set c.fin b, fin := (c.fin + 1) % c.buf.length }

/-- Every dropped line is at least one byte long, so the loop ends or fails within the fuel. -/
def push (c : LogCache) (line : Bytes) : Option LogCache := do
  let need := line.length + 1
  let c ← c.makeRoom need (c.bytes + 1)
  let c := (line ++ [newline]).foldl append c
  pure { c with bytes := c.bytes + need }

def snapshot (c : LogCache) : Bytes :=
  if c.bytes = 0 then []
  else if c.start < c.fin then (c.buf.take c.fin).drop c.start
  else c.buf.drop c.start ++ c.buf.take c.fin

/-- The cached lines without their newlines, read from `pos` while `remaining` bytes are left. -/
def collectFrom (c : LogCache) : ℕ → ℕ → ℕ → List Bytes
  | 0, _, _ => []
  | fuel + 1, pos, remaining =>
    if remaining = 0 then []
    else match c.findNewline (c.buf.length + 1) pos with
      | none => []
      | some i =>
        let line := if pos ≤ i then (c.buf.take i).drop pos else c.buf.drop pos ++ c.buf.take i
        line :: c.collectFrom fuel ((i + 1) % c.buf.length) (remaining - (line.length + 1))

def collectLines (c : LogCache) : List Bytes := c.collectFrom c.bytes c.start c.bytes

end LogCache

def drainLines (lineBuf bytes : Bytes) : List Bytes × Bytes :=
  (lineBuf ++ bytes).foldl
    (fun acc b => if b = newline then (acc.1 ++ [acc.2], []) else (acc.1, acc.2 ++ [b])) ([], [])

/-- The buffers of one line. Only the last one ends in a newline; the other ones have the length of
their payload plus one all the same, so their last byte is whatever the pool buffer held. -/
def splitFrom (stale : Bytes) : ℕ → Bytes → List Bytes
  | 0, _ => []
  | fuel + 1, rest =>
    let n := min rest.length writeChunkPayload
    if n = rest.length then [rest ++ [newline]]
    else (rest.take n ++ [stale.headD 0]) :: splitFrom stale.tail fuel (rest.drop n)

def splitLine (stale line : Bytes) : List Bytes := splitFrom stale (line.length + 1) line

end Conrt.Daemon
