import Conrt.Buf.Slab

/-! Views of pooled slots and the conversions between them.

Ownership is moved by hand in the source, so each destructor a conversion runs, and each it
forgets, is spelled out. `Option.none` is a panic inside a destructor, which ends the run; every
other failed assertion unwinds and drops the values then in scope. -/
namespace Conrt.Buf

/-- `Ref`, `RefMut`, `Slice` and `SliceMut`. -/
inductive Span
  | ref
  | refMut
  | slice (len : ℕ)
  | sliceMut (len : ℕ)
deriving DecidableEq, Repr

/-- `elem` is the size of the element type. -/
structure View where
  bid : ℕ
  generation : ℕ
  offset : ℕ
  elem : ℕ
  span : Span
deriving DecidableEq, Repr

namespace View

def exclusive (v : View) : Bool :=
  match v.span with
  | .ref | .slice _ => false
  | .refMut | .sliceMut _ => true

def len (v : View) : ℕ :=
  match v.span with
  | .slice n | .sliceMut n => n
  | .ref | .refMut => 0

def slot (v : View) : Slot := slotOf v.bid

def isSlice (v : View) : Bool :=
  match v.span with
  | .slice _ | .sliceMut _ => true
  | .ref | .refMut => false

/-- `Bytes` is `Slice<u8>`. -/
def isBytes (v : View) : Bool := v.isSlice && !v.exclusive && v.elem == 1

/-- `BytesMut` is `SliceMut<u8>`. -/
def isBytesMut (v : View) : Bool := v.isSlice && v.exclusive && v.elem == 1

/-- The `Ref` or `RefMut` a slice is built on. -/
def base (v : View) : View := { v with span := if v.exclusive then .refMut else .ref }

/-- A slice over `base`. -/
def covering (v : View) (n : ℕ) : View :=
  { v with span := if v.exclusive then .sliceMut n else .slice n }

end View

/-- How a call ends: normally, handing out `views`, or by unwinding. -/
inductive Outcome
  | returned (pools : Pools) (views : List View)
  | unwound (pools : Pools)
deriving DecidableEq, Repr

section

-- the generation of the running runtime
variable (live : ℕ)

/-- A stale view leaks its slot, so its clone registers nothing. -/
def cloneView (p : Pools) (bid generation : ℕ) : Option Pools :=
  if generation ≠ live then some p
  else p.withSlab bid fun s loc => Slab.track s (·.cloneShared loc)

def dropView (p : Pools) (bid generation : ℕ) (exclusive : Bool) : Option Pools :=
  if generation ≠ live then some p
  else p.withSlab bid fun s loc => Slab.dropView s exclusive loc

def upgradeView (p : Pools) (bid generation : ℕ) : Option Pools :=
  if generation ≠ live then none
  else p.withSlab bid fun s loc => Slab.track s (·.upgrade loc)

def downgradeView (p : Pools) (bid generation : ℕ) : Option Pools :=
  if generation ≠ live then none
  else p.withSlab bid fun s loc => Slab.track s (·.downgrade loc)

def splitExclusive (p : Pools) (bid generation : ℕ) : Option Pools :=
  if generation ≠ live then some p
  else p.withSlab bid fun s loc => Slab.track s (·.splitExclusive loc)

def dropValue (p : Pools) (v : View) : Option Pools :=
  dropView live p v.bid v.generation v.exclusive

/-- A failed assertion unwinds with `v` in scope. -/
def unwind (p : Pools) (v : View) : Option Outcome := (dropValue live p v).map .unwound

/-- `Clone for Ref`. The clone is the only new view; `self` is borrowed. -/
def clone (p : Pools) (self : View) : Option Outcome :=
  match cloneView live p self.bid self.generation with
  | some p => some (.returned p [{ self with span := .ref }])
  | none => some (.unwound p)

/-- `Ref::cast` and `RefMut::cast`, between types of one size: the fields are copied and `self` is
forgotten. -/
def castRef (p : Pools) (self : View) : Option Outcome := some (.returned p [self])

def intoMut (p : Pools) (self : View) : Option Outcome :=
  match upgradeView live p self.bid self.generation with
  | some p => some (.returned p [{ self with span := .refMut }])
  | none => unwind live p self

def intoShared (p : Pools) (self : View) : Option Outcome :=
  match downgradeView live p self.bid self.generation with
  | some p => some (.returned p [{ self with span := .ref }])
  | none => unwind live p self

/-- `Slice::into_ref` and `SliceMut::into_ref`: the base is read out and `self` forgotten. -/
def intoBase (p : Pools) (self : View) : Option Outcome :=
  some (.returned p [self.base])

/-- `Slice::cast` and `SliceMut::cast`. The base is read out with `ptr::read`, `self` is forgotten
and the result is built from the base's fields; the base itself is dropped when the call ends. -/
def castSlice (p : Pools) (self : View) (sizeU : ℕ) : Option Outcome :=
  let bytes := self.len * self.elem
  if sizeU ∣ bytes then
    let base := self.base
    if sizeU = 0 then do
      -- the division by a zero-sized `U` panics with the result's base built: both are dropped
      let p ← dropValue live p base
      unwind live p base
    else
      let result := { base.covering (bytes / sizeU) with elem := sizeU }
      (dropValue live p base).map (.returned · [result])
  else unwind live p self

def sub (p : Pools) (self : View) (a b : ℕ) : Option Outcome :=
  if b < a ∨ self.len < b then some (.returned p [])
  else
    match cloneView live p self.bid self.generation with
    | some p => some (.returned p [{ self with offset := self.offset + a, span := .slice (b - a) }])
    | none => some (.unwound p)

/-- `Bytes::into_vec`: releases the slot by hand, then forgets `self`. -/
def intoVec (p : Pools) (self : View) : Option Outcome :=
  (dropView live p self.bid self.generation false).map (.returned · [])

def bytesIntoMut (p : Pools) (self : View) : Option Outcome :=
  match intoMut live p self.base with
  | some (.returned p vs) => some (.returned p (vs.map (·.covering self.len)))
  | r => r

def intoBytes (p : Pools) (self : View) : Option Outcome :=
  match intoShared live p self.base with
  | some (.returned p vs) => some (.returned p (vs.map (·.covering self.len)))
  | r => r

/-- `BytesMut::split_at`. A `mid` past the end drops `self`. -/
def splitAt (p : Pools) (self : View) (mid : ℕ) : Option Outcome :=
  if self.len < mid then (dropValue live p self).map (.returned · [])
  else
    match splitExclusive live p self.bid self.generation with
    | some p => some (.returned p
        [self.covering mid, { self.covering (self.len - mid) with offset := self.offset + mid }])
    | none => unwind live p self

/-- `BytesMut::set_len`; `none` is a failed assertion, which leaves the view as it was. -/
def setLen (p : Pools) (self : View) (newLen : ℕ) : Option View :=
  if self.generation ≠ live then none
  else do
    let size ← p.slotSize self.bid
    -- `capacity` subtracts the view's offset from the slot size
    guard (self.offset ≤ size)
    guard (newLen ≤ size - self.offset)
    some (self.covering newLen)

def clear (self : View) : View := self.covering 0

def dropSelf (p : Pools) (self : View) : Option Outcome :=
  (dropValue live p self).map (.returned · [])

/-- Pops a free slot of class `cls`, marks it exclusively or once shared and views it as `span`. -/
def acquireSlot (p : Pools) (cls elem : ℕ) (exclusive : Bool) (span : ℕ → Span) :
    Option Outcome := do
  let s ← p.fixedPool.slabs[cls]?
  match s.free with
  | [] => some (.returned p [])
  | loc :: free =>
    let put (s : FixedSlab) : Pools :=
      { p with fixedPool := { p.fixedPool with slabs := p.fixedPool.slabs.set cls s } }
    let take := if exclusive then s.tracker.takeExclusive else s.tracker.takeShared
    match take loc with
    | some t => some (.returned (put { s with free := free, tracker := t })
        [⟨packBid false cls loc, live, 0, elem, span s.size⟩])
    | none => some (.unwound (put { s with free := free }))

/-- Acquires a slot of the class serving `size` bytes. A class whose slots are aligned below
`align` is refused by an assertion. -/
def acquire (p : Pools) (size align elem : ℕ) (exclusive : Bool) (span : ℕ → Span) :
    Option Outcome :=
  match classFor p.fixedPool.classes size with
  | none => some (.returned p [])
  | some cls => do
    let c ← p.fixedPool.classes[cls]?
    if min c.size bufferMaxAlign < align then some (.unwound p)
    else acquireSlot live p cls elem exclusive span

def alloc (p : Pools) (sizeT alignT : ℕ) : Option Outcome :=
  if sizeT = 0 then some (.unwound p)
  else acquire live p sizeT alignT sizeT false fun _ => .ref

def allocMut (p : Pools) (sizeT alignT : ℕ) : Option Outcome :=
  if sizeT = 0 then some (.unwound p)
  else acquire live p sizeT alignT sizeT true fun _ => .refMut

/-- `alloc_slice_mut`: the slot is acquired whole and covered for exactly `count` elements. -/
def allocSliceMut (p : Pools) (sizeT alignT count : ℕ) : Option Outcome :=
  if sizeT = 0 then some (.unwound p)
  else if 2 ^ 64 ≤ count * sizeT ∨ count * sizeT = 0 then some (.returned p [])
  else acquire live p (count * sizeT) alignT sizeT true fun _ => .sliceMut count

/-- `alloc_bytes`, which covers the whole slot. -/
def allocBytes (p : Pools) (size : ℕ) : Option Outcome :=
  acquire live p size 1 1 true fun slotSize => .sliceMut slotSize

/-- `provided_bytes`: adopts the buffer a completion reported. Its contract, without which there is
no such call, is that the kernel has just taken `loc` off the ring and filled `len` bytes of it. -/
def providedBytes (p : Pools) (cls loc len : ℕ) : Option Outcome := do
  let s ← p.providedPool.slabs[cls]?
  guard (loc ∈ s.ring ∧ len ≤ s.size)
  let put (t : BorrowTracker) : Pools :=
    let slabs := p.providedPool.slabs.set cls { s with ring := s.ring.erase loc, tracker := t }
    { p with providedPool := { p.providedPool with slabs := slabs } }
  match s.tracker.takeShared loc with
  | some t => some (.returned (put t) [⟨packBid true cls loc, live, 0, 1, .slice len⟩])
  | none => some (.unwound (put s.tracker))

end

inductive Op
  | alloc (sizeT alignT : ℕ)
  | allocMut (sizeT alignT : ℕ)
  | allocBytes (size : ℕ)
  | allocSliceMut (sizeT alignT count : ℕ)
  | providedBytes (cls loc len : ℕ)
  | clone (v : View)
  | sub (v : View) (a b : ℕ)
  | cast (v : View) (sizeU : ℕ)
  | intoMut (v : View)
  | intoRef (v : View)
  | intoBytes (v : View)
  | splitAt (v : View) (mid : ℕ)
  | intoVec (v : View)
  | setLen (v : View) (newLen : ℕ)
  | clear (v : View)
  | drop (v : View)
deriving DecidableEq, Repr

/-- The pools, the runtime's generation and every view that is alive. -/
structure World where
  pools : Pools
  live : ℕ
  views : List View
deriving DecidableEq, Repr

def World.boot (live : ℕ) (providedSpec fixedSpec : List SizeClass) : Option World :=
  (buildPools providedSpec fixedSpec).map (⟨·, live, []⟩)

namespace World

/-- Continues with the views a call left, `consumed` being the one it took by value. -/
def settle (w : World) (consumed : Option View) : Option Outcome → Option World
  | some (.returned p out) => some { w with pools := p, views := w.views.diff consumed.toList ++ out }
  | some (.unwound p) => some { w with pools := p, views := w.views.diff consumed.toList }
  | none => none

def replace (w : World) (v : View) : Option View → World
  | some v' => { w with views := w.views.erase v ++ [v'] }
  | none => w

/-- One call. The view it names must be alive and of the type the method is declared on. -/
def step (w : World) : Op → Option World
  | .alloc sizeT alignT => w.settle none (Buf.alloc w.live w.pools sizeT alignT)
  | .allocMut sizeT alignT => w.settle none (Buf.allocMut w.live w.pools sizeT alignT)
  | .allocBytes size => w.settle none (Buf.allocBytes w.live w.pools size)
  | .allocSliceMut sizeT alignT count =>
    w.settle none (Buf.allocSliceMut w.live w.pools sizeT alignT count)
  | .providedBytes cls loc len => w.settle none (Buf.providedBytes w.live w.pools cls loc len)
  | .clone v => do
    guard (v ∈ w.views ∧ v.span = .ref)
    w.settle none (Buf.clone w.live w.pools v)
  | .sub v a b => do
    guard (v ∈ w.views ∧ v.isBytes)
    w.settle none (Buf.sub w.live w.pools v a b)
  | .cast v sizeU => do
    guard (v ∈ w.views)
    if v.isSlice then w.settle v (castSlice w.live w.pools v sizeU)
    else do
      guard (sizeU = v.elem)
      w.settle v (castRef w.pools v)
  | .intoMut v => do
    guard (v ∈ w.views ∧ (v.span = .ref ∨ v.isBytes))
    if v.isSlice then w.settle v (bytesIntoMut w.live w.pools v)
    else w.settle v (Buf.intoMut w.live w.pools v)
  | .intoRef v => do
    guard (v ∈ w.views ∧ v.span ≠ .ref)
    if v.isSlice then w.settle v (intoBase w.pools v)
    else w.settle v (intoShared w.live w.pools v)
  | .intoBytes v => do
    guard (v ∈ w.views ∧ v.isBytesMut)
    w.settle v (Buf.intoBytes w.live w.pools v)
  | .splitAt v mid => do
    guard (v ∈ w.views ∧ v.isBytesMut)
    w.settle v (Buf.splitAt w.live w.pools v mid)
  | .intoVec v => do
    guard (v ∈ w.views ∧ v.isBytes)
    w.settle v (Buf.intoVec w.live w.pools v)
  | .setLen v newLen => do
    guard (v ∈ w.views ∧ v.isBytesMut)
    some (w.replace v (Buf.setLen w.live w.pools v newLen))
  | .clear v => do
    guard (v ∈ w.views ∧ v.isBytesMut)
    some (w.replace v (some (Buf.clear v)))
  | .drop v => do
    guard (v ∈ w.views)
    w.settle v (dropSelf w.live w.pools v)

end World

end Conrt.Buf
