import OmrCompiler.SparseVectors

/-! Cursors over sparse vectors: one of a vector, one of the common bits of two and one
of the bits of a vector that are not in another. -/
namespace OmrCompiler.SparseBits

-- The cursor's own fields are uint32_t.
def word : Nat := 0x100000000

/- The number of values, less one, and the high bits are those of the segment that the
cursor is in; indices is the memory that fSegment points to. -/
structure Cursor where
  segmentIndex : Nat
  popCount : Nat
  highBits : Nat
  offset : Nat
  indices : List Nat
  deriving DecidableEq, Repr

def Cursor.valid (v : List Segment) (c : Cursor) : Bool := decide (c.segmentIndex < v.length)

def Cursor.value (c : Cursor) : Option Nat := do
  let value ← c.indices[c.offset]?
  some (c.highBits + value)

def previous (n : Nat) : Nat := (n + (word - 1)) % word

-- The fields for the segment that the cursor is in.
def Cursor.enter (v : List Segment) (c : Cursor) : Option Cursor := do
  let s ← v[c.segmentIndex]?
  some { c with indices := s.indices, popCount := previous s.indices.length, highBits := s.index }

def Cursor.setToFirstOne (v : List Segment) (c : Cursor) : Option Cursor :=
  let c := { c with segmentIndex := 0, offset := 0 }
  if c.valid v then c.enter v else some c

def Cursor.setToLastOne (v : List Segment) (c : Cursor) : Option Cursor :=
  if v.length > 0 then do
    let c ← { c with segmentIndex := v.length - 1 : Cursor }.enter v
    some { c with offset := c.popCount }
  else some { c with segmentIndex := 0 }

-- To the first bit of the next segment, if there is one.
def Cursor.nextSegment (v : List Segment) (c : Cursor) : Option (Bool × Cursor) :=
  let c := { c with segmentIndex := (c.segmentIndex + 1) % word }
  if c.valid v then do
    let c ← { c with offset := 0 : Cursor }.enter v
    some (true,c)
  else some (false,c)

def Cursor.setToNextOne (v : List Segment) (c : Cursor) : Option (Bool × Cursor) :=
  if c.offset < c.popCount then some (true,{ c with offset := c.offset + 1 }) else c.nextSegment v

def Cursor.setToPreviousOne (v : List Segment) (c : Cursor) : Option (Bool × Cursor) :=
  if c.offset > 0 then some (true,{ c with offset := c.offset - 1 })
  else
    let c := { c with segmentIndex := previous c.segmentIndex }
    if c.valid v then do
      let c ← c.enter v
      some (true,{ c with offset := c.popCount })
    else some (false,c)

-- Up to a segment whose high bits are not below those searched for; index, which starts at the offset, is 0 in a new one.
def Cursor.skipSegments (v : List Segment) (nexthi : Nat) : Nat → Nat → Cursor → Option (Bool × Nat × Cursor)
  | 0,_,_ => none
  | fuel + 1,index,c =>
      if c.highBits < nexthi then
        let c := { c with segmentIndex := (c.segmentIndex + 1) % word }
        if c.valid v then do
          let c ← c.enter v
          c.skipSegments v nexthi fuel 0
        else some (false,index,c)
      else some (true,index,c)

def Cursor.setToNextOneAfter (v : List Segment) (next : Nat) (c : Cursor) : Option (Bool × Cursor) := do
  let next := (next + 1) % word
  let (ok,index,c) ← c.skipSegments v (next / halfWord * halfWord) (v.length + 1) c.offset
  if ok = false then some (false,c)
  else if c.highBits = next / halfWord * halfWord then do
    let s ← v[c.segmentIndex]?
    let index ← advanceIndex s.indices (next % halfWord) index
    if index > c.popCount then c.nextSegment v
    else some (true,{ c with offset := index })
  else some (true,{ c with offset := 0 })

-- The bits that a loop over a cursor visits.
def visits (v : List Segment) (move : Cursor → Option (Bool × Cursor)) : Nat → Cursor → Option (List Nat)
  | 0,_ => none
  | fuel + 1,c =>
      if c.valid v then do
        let x ← c.value
        let (_,c) ← move c
        let rest ← visits v move fuel c
        some (x::rest)
      else some []

def visitsForward (v : List Segment) (fuel : Nat) (c : Cursor) : Option (List Nat) := do
  let c ← c.setToFirstOne v
  visits v (·.setToNextOne v) fuel c

def visitsBackward (v : List Segment) (fuel : Nat) (c : Cursor) : Option (List Nat) := do
  let c ← c.setToLastOne v
  visits v (·.setToPreviousOne v) fuel c

/- IntersectionCursor. -/

structure IntersectionCursor where
  c1 : Cursor
  c2 : Cursor

def IntersectionCursor.valid (v w : List Segment) (c : IntersectionCursor) : Bool := c.c1.valid v && c.c2.valid w

def IntersectionCursor.findNextCommonItem (v w : List Segment) : Nat → IntersectionCursor → Option (Bool × IntersectionCursor)
  | 0,_ => none
  | fuel + 1,c => do
      let x ← c.c1.value
      let y ← c.c2.value
      if x = y then some (true,c)
      else if x < y then do
        let (ok,c1) ← c.c1.setToNextOneAfter v (previous y)
        if ok then findNextCommonItem v w fuel ⟨c1,c.c2⟩ else some (false,⟨c1,c.c2⟩)
      else do
        let (ok,c2) ← c.c2.setToNextOneAfter w (previous x)
        if ok then findNextCommonItem v w fuel ⟨c.c1,c2⟩ else some (false,⟨c.c1,c2⟩)

def IntersectionCursor.setToFirstOne (v w : List Segment) (fuel : Nat) (c : IntersectionCursor) : Option (Bool × IntersectionCursor) := do
  let c1 ← c.c1.setToFirstOne v
  let c2 ← c.c2.setToFirstOne w
  let c : IntersectionCursor := ⟨c1,c2⟩
  if c.valid v w then c.findNextCommonItem v w fuel else some (false,c)

def IntersectionCursor.setToNextOne (v w : List Segment) (fuel : Nat) (c : IntersectionCursor) : Option (Bool × IntersectionCursor) := do
  let x ← c.c1.value
  let y ← c.c2.value
  if x ≤ y then do
    let (ok,c1) ← c.c1.setToNextOne v
    if ok then findNextCommonItem v w fuel ⟨c1,c.c2⟩ else some (false,⟨c1,c.c2⟩)
  else do
    let (ok,c2) ← c.c2.setToNextOne w
    if ok then findNextCommonItem v w fuel ⟨c.c1,c2⟩ else some (false,⟨c.c1,c2⟩)

def visitsCommon (v w : List Segment) (moves : Nat) : Nat → IntersectionCursor → Option (List Nat)
  | 0,_ => none
  | fuel + 1,c =>
      if c.valid v w then do
        let x ← c.c1.value
        let (_,c) ← c.setToNextOne v w moves
        let rest ← visitsCommon v w moves fuel c
        some (x::rest)
      else some []

def visitsIntersection (v w : List Segment) (moves fuel : Nat) (c : IntersectionCursor) : Option (List Nat) := do
  let (_,c) ← c.setToFirstOne v w moves
  visitsCommon v w moves fuel c

/- MaskCursor. -/

structure MaskCursor where
  c : Cursor
  m : Cursor

def MaskCursor.findLoop (v w : List Segment) : Nat → MaskCursor → Option (Bool × MaskCursor)
  | 0,_ => none
  | fuel + 1,c => do
      let x ← c.c.value
      let y ← c.m.value
      if x ≥ y then do
        let (ok,cc) ← if x = y then c.c.setToNextOne v else some (true,c.c)
        if ok then do
          let x ← cc.value
          let (ok,m) ← c.m.setToNextOneAfter w (previous x)
          if ok then findLoop v w fuel ⟨cc,m⟩ else some (true,⟨cc,m⟩)
        else some (false,⟨cc,c.m⟩)
      else some (true,c)

def MaskCursor.findNextMaskedItem (v w : List Segment) (fuel : Nat) (c : MaskCursor) : Option (Bool × MaskCursor) :=
  if c.m.valid w then c.findLoop v w fuel else some (true,c)

def MaskCursor.setToFirstOne (v w : List Segment) (fuel : Nat) (c : MaskCursor) : Option (Bool × MaskCursor) := do
  let cc ← c.c.setToFirstOne v
  let m ← c.m.setToFirstOne w
  if cc.valid v then findNextMaskedItem v w fuel ⟨cc,m⟩ else some (false,⟨cc,m⟩)

def MaskCursor.setToNextOne (v w : List Segment) (fuel : Nat) (c : MaskCursor) : Option (Bool × MaskCursor) := do
  let (ok,cc) ← c.c.setToNextOne v
  if ok then findNextMaskedItem v w fuel ⟨cc,c.m⟩ else some (false,⟨cc,c.m⟩)

def visitsUnmasked (v w : List Segment) (moves : Nat) : Nat → MaskCursor → Option (List Nat)
  | 0,_ => none
  | fuel + 1,c =>
      if c.c.valid v then do
        let x ← c.c.value
        let (_,c) ← c.setToNextOne v w moves
        let rest ← visitsUnmasked v w moves fuel c
        some (x::rest)
      else some []

def visitsMask (v w : List Segment) (moves fuel : Nat) (c : MaskCursor) : Option (List Nat) := do
  let (_,c) ← c.setToFirstOne v w moves
  visitsUnmasked v w moves fuel c

end OmrCompiler.SparseBits
