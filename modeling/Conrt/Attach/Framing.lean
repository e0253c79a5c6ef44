import Conrt.Attach.Client
import Conrt.Base.PrefixCode
import Conrt.Daemon.Frames

/-! Frames as a prefix code, and how `read_frame` takes them off a stream. -/
namespace Conrt.Attach

open Conrt.Base
open Conrt.Daemon (Bytes Frame headerFields u16ToLe u16FromLe)

/-- The length of the payload can be written in 16 bits. -/
def Fits (f : Frame) : Prop := f.payload.length ≤ 65535

section

variable {f g : Frame} {fs gs : List Frame} {ty : UInt8} {need : ℕ} {b x y : Bytes}

theorem header_bytes (f : Frame) : f.bytes = f.ty :: u16ToLe f.payload.length ++ f.payload := rfl

private theorem u16ToLe_inj {m n : ℕ} (hm : m ≤ 65535) (hn : n ≤ 65535) (h : u16ToLe m = u16ToLe n) : m = n := by
  have hlo := congrArg (fun b : Bytes => u16FromLe (b.getD 0 0) (b.getD 1 0)) h
  exact (Daemon.u16FromLe_u16ToLe hm).symm.trans (hlo.trans (Daemon.u16FromLe_u16ToLe hn))

/-- What starts with a header is the start of a frame with that header. -/
theorem of_header (hneed : need ≤ 65535) (hg : Fits g)
    (hp : (ty :: u16ToLe need) ++ x <+: g.bytes ++ y) :
    g.ty = ty ∧ g.payload.length = need ∧ x <+: g.payload ++ y := by
  rw [header_bytes, List.append_assoc] at hp
  have hsame : (ty :: u16ToLe need).length = (g.ty :: u16ToLe g.payload.length).length := rfl
  obtain ⟨hhead, hrest⟩ := (List.prefix_append_inj_of_length_eq hsame).mp hp
  obtain ⟨rfl, hlen⟩ := List.cons.inj hhead
  exact ⟨rfl, (u16ToLe_inj hneed hg hlen).symm, hrest⟩

theorem frames_code : PrefixCode Fits Frame.bytes := by
  constructor
  case ne_nil => exact fun f _ => List.cons_ne_nil _ _
  case apart =>
    intro f g x y hf hg hp
    rw [header_bytes f, List.append_assoc] at hp
    obtain ⟨hty, hlen, hp⟩ := of_header hf hg hp
    obtain ⟨hpayload, -⟩ := (List.prefix_append_inj_of_length_eq hlen.symm).mp hp
    cases f
    cases g
    cases hty
    cases hpayload
    rfl

theorem headerFields_long (h : headerFields b = none) : b.length < 3 := by
  match b with
  | [] | [_] | [_, _] => simp
  | ty :: lo :: hi :: _ => cases h

namespace FrameReader

variable {r r' : FrameReader}

/-- The bytes of the frame that are there. -/
def held : FrameReader → Bytes
  | .header acc => acc
  | .payload ty acc need => ty :: u16ToLe need ++ acc

/-- It goes on only while something is missing. -/
def Wants : FrameReader → Prop
  | .header acc => acc.length < 3
  | .payload _ acc need => need ≤ 65535 ∧ acc.length < need

/-- A header is read with nothing beyond it. -/
theorem header_exact {acc : Bytes} {len : ℕ} (h : acc.length < 3) (hb : b.length ≤ 3 - acc.length)
    (hh : headerFields (acc ++ b) = some (ty, len)) : acc ++ b = ty :: u16ToLe len ∧ len ≤ 65535 := by
  refine Daemon.headerFields_eq hh ?_
  have hle : 3 ≤ (acc ++ b).length := by
    by_contra hlt
    rw [Daemon.headerFields_short (by omega)] at hh
    cases hh
  rw [List.length_append] at hle ⊢
  omega

theorem feed_inl (h : r.Wants) (hb : b.length ≤ r.want) (hf : r.feed b = .inl r') :
    r'.held = r.held ++ b ∧ r'.Wants := by
  cases r with
  | header acc =>
    cases hh : headerFields (acc ++ b) with
    | none =>
      simp only [feed, hh] at hf
      obtain rfl := Sum.inl.inj hf
      exact ⟨rfl, headerFields_long hh⟩
    | some p =>
      obtain ⟨ty, len⟩ := p
      simp only [feed, hh] at hf
      split_ifs at hf with hlen
      obtain rfl := Sum.inl.inj hf
      obtain ⟨hbytes, hle⟩ := header_exact h hb hh
      refine ⟨?_, hle, Nat.pos_of_ne_zero hlen⟩
      change ty :: u16ToLe len ++ [] = acc ++ b
      rw [List.append_nil, hbytes]
  | payload ty acc need =>
    simp only [feed] at hf
    split_ifs at hf with hlt
    obtain rfl := Sum.inl.inj hf
    exact ⟨(List.append_assoc _ _ _).symm, h.1, hlt⟩

theorem feed_inr (h : r.Wants) (hb : b.length ≤ r.want) (hf : r.feed b = .inr f) :
    f.bytes = r.held ++ b ∧ Fits f := by
  cases r with
  | header acc =>
    cases hh : headerFields (acc ++ b) with
    | none =>
      simp only [feed, hh] at hf
      cases hf
    | some p =>
      obtain ⟨ty, len⟩ := p
      simp only [feed, hh] at hf
      split_ifs at hf with hlen
      obtain rfl := Sum.inr.inj hf
      obtain ⟨hbytes, -⟩ := header_exact h hb hh
      rw [hlen] at hbytes
      exact ⟨hbytes.symm, Nat.zero_le _⟩
  | payload ty acc need =>
    obtain ⟨hneed, hacc⟩ := h
    have hb : b.length ≤ need - acc.length := hb
    simp only [feed] at hf
    split_ifs at hf with hlt
    obtain rfl := Sum.inr.inj hf
    have hlen : (acc ++ b).length = need := by
      rw [List.length_append] at hlt ⊢
      omega
    refine ⟨?_, hlen.le.trans hneed⟩
    rw [header_bytes]
    change ty :: u16ToLe (acc ++ b).length ++ (acc ++ b) = ty :: u16ToLe need ++ acc ++ b
    rw [hlen, List.append_assoc]

end FrameReader

end

end Conrt.Attach
