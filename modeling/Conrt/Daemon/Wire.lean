import Mathlib.Tactic

/-! The framed stream between a client and the daemon, and how the daemon reads it. -/
namespace Conrt.Daemon

abbrev Bytes := List UInt8

def u16ToLe (len : ℕ) : Bytes := [UInt8.ofNat (len % 256), UInt8.ofNat (len / 256 % 256)]

def u16FromLe (lo hi : UInt8) : ℕ := lo.toNat + 256 * hi.toNat

def buildFrame (ty : UInt8) (payload : Bytes) : Bytes := ty :: u16ToLe payload.length ++ payload

structure Frame where
  ty : UInt8
  payload : Bytes
deriving DecidableEq, Repr

namespace Frame

def bytes (f : Frame) : Bytes := buildFrame f.ty f.payload

def size (f : Frame) : ℕ := 3 + f.payload.length

end Frame

/-- The type and the payload length, once three bytes are there. -/
def headerFields : Bytes → Option (UInt8 × ℕ)
  | ty :: lo :: hi :: _ => some (ty, u16FromLe lo hi)
  | _ => none

inductive Reading
  | header (acc : Bytes)
  | payload (ty : UInt8) (acc : Bytes) (need : ℕ)
deriving DecidableEq, Repr

namespace Reading

/-- The most bytes the next read may return. -/
def want : Reading → ℕ
  | .header _ => 3
  | .payload _ acc need => max (need - acc.length) 1

/-- What a non-empty read leads to: a further read, or a frame to dispatch. -/
def feed : Reading → Bytes → Reading ⊕ Frame
  | .header acc, b =>
    match headerFields (acc ++ b) with
    | some (ty, need) => .inl (.payload ty [] need)
    | none => .inl (.header (acc ++ b))
  | .payload ty acc need, b =>
    if (acc ++ b).length < need then .inl (.payload ty (acc ++ b) need) else .inr ⟨ty, acc ++ b⟩

/-- A header read never ends a frame. -/
theorem feed_header (acc b : Bytes) : ∃ rd, (Reading.header acc).feed b = .inl rd := by
  unfold Reading.feed
  dsimp only
  split
  · exact ⟨_, rfl⟩
  · exact ⟨_, rfl⟩

end Reading

theorem u16FromLe_u16ToLe {len : ℕ} (h : len ≤ 65535) :
    u16FromLe (UInt8.ofNat (len % 256)) (UInt8.ofNat (len / 256 % 256)) = len := by
  unfold u16FromLe
  have hlo : (UInt8.ofNat (len % 256)).toNat = len % 256 := by
    simp
  have hhi : (UInt8.ofNat (len / 256 % 256)).toNat = len / 256 % 256 := by
    simp
  rw [hlo, hhi]
  omega

theorem Frame.length_bytes (f : Frame) : f.bytes.length = f.size := by
  simp [Frame.bytes, buildFrame, u16ToLe, Frame.size]
  omega

theorem headerFields_short {acc : Bytes} (h : acc.length < 3) : headerFields acc = none := by
  match acc, h with
  | [], _ => rfl
  | [_], _ => rfl
  | [_, _], _ => rfl

/-- Whatever is read past the end of a header is ignored. -/
theorem headerFields_bytes {f : Frame} (hlen : f.payload.length ≤ 65535) (extra : Bytes) :
    headerFields (f.bytes.take 3 ++ extra) = some (f.ty, f.payload.length) :=
  congrArg (fun need => some (f.ty, need)) (u16FromLe_u16ToLe hlen)

end Conrt.Daemon
