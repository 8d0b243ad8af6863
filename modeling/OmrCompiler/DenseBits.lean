import OmrCompiler.BitManipulator

/-! CS2 dense bit vectors: words allocated and grown on demand, combined word by word
with other vectors of any length, searched, and visited in order by a
cursor. A word outside the allocated ones has no value, and a store to it no result. -/
namespace OmrCompiler.DenseBits
open BitManipulator

-- BITVECTOR_64BIT
def kBitWordSize : Bool → Nat
  | true => 64
  | false => 32

abbrev Word (wide : Bool) := BitVec (kBitWordSize wide)

def kHighBit : (wide : Bool) → Word wide
  | true => 0x8000000000000000#64
  | false => 0x80000000#32

def leadingZeroes : (wide : Bool) → Word wide → Nat
  | true,word => emulateLeadingZeroes64 word
  | false,word => emulateLeadingZeroes word

def trailingZeroes : (wide : Bool) → Word wide → Nat
  | true,word => trailingZeroes64 word
  | false,word => trailingZeroes32 word

def populationCount : (wide : Bool) → Word wide → Nat
  | true,word => populationCount64 word
  | false,word => populationCount32 word

-- An empty vector has no words, and may be null.
structure ABitVector (wide : Bool) where
  fNumBits : Nat
  fBitWords : List (Word wide)
  isNull : Bool

section Vector
variable {wide : Bool}

def start : ABitVector wide := ⟨0,[],true⟩

def sizeInWords (wide : Bool) (numBits : Nat) : Nat := (numBits + kBitWordSize wide - 1) % 2 ^ 32 / kBitWordSize wide

def wordAt (v : ABitVector wide) (wordIndex : Nat) : Option (Word wide) := v.fBitWords[wordIndex]?

def setWordAt (v : ABitVector wide) (wordIndex : Nat) (word : Word wide) : Option (ABitVector wide) :=
  if wordIndex < v.fBitWords.length then some {v with fBitWords := v.fBitWords.set wordIndex word} else none

def clear (_ : ABitVector wide) : ABitVector wide := ⟨0,[],false⟩

def clearToNull (_ : ABitVector wide) : ABitVector wide := ⟨0,[],true⟩

def chunk : Nat := 128 * 8

def doubled (newBitSize : Nat) : Nat → Nat → Option Nat
  | 0,_ => none
  | fuel + 1,power2Size => if power2Size < newBitSize then doubled newBitSize fuel (power2Size * 2 % 2 ^ 32) else some power2Size

def newSize (newBitSize : Nat) (geometric forceGeometric : Bool) : Option Nat :=
  if geometric && (forceGeometric || newBitSize < 1024) then doubled newBitSize 33 1
  else some ((newBitSize + chunk - newBitSize % chunk) % 2 ^ 32)

-- A smaller size makes the number of bytes to zero wrap around.
def growTo (v : ABitVector wide) (newBitSize : Nat) (geometric forceGeometric : Bool) : Option (ABitVector wide) :=
  if newBitSize ≤ v.fNumBits then some (if v.fNumBits = 0 then clear v else v)
  else do
    let newBitSize ← newSize newBitSize geometric forceGeometric
    let numBits := sizeInWords wide newBitSize * kBitWordSize wide % 2 ^ 32
    if v.fNumBits = 0 then some ⟨numBits,List.replicate (sizeInWords wide numBits) 0,false⟩
    else if numBits < v.fNumBits then none
    else some ⟨numBits,v.fBitWords ++ List.replicate (sizeInWords wide numBits - sizeInWords wide v.fNumBits) 0,false⟩

def assign (v : ABitVector wide) (fIndex : Nat) (bitValue : Bool) : Option (ABitVector wide) :=
  if bitValue = false ∧ v.fNumBits < fIndex then some v
  else do
    let v ← growTo v (fIndex + 1) true false
    let shiftAmount := kBitWordSize wide - fIndex % kBitWordSize wide - 1
    let word ← wordAt v (fIndex / kBitWordSize wide)
    let resultWord := word &&& ~~~((1 : Word wide) <<< shiftAmount)
    setWordAt v (fIndex / kBitWordSize wide) (resultWord ||| ((if bitValue then 1 else 0 : Word wide) <<< shiftAmount))

def setWords (v : ABitVector wide) (word : Word wide) : Nat → Nat → Option (ABitVector wide)
  | 0,_ => some v
  | n + 1,i => do setWords (← setWordAt v i word) word n (i + 1)

def setBits (v : ABitVector wide) : Nat → Nat → Option (ABitVector wide)
  | 0,_ => some v
  | n + 1,i => do setBits (← assign v i true) n (i + 1)

def setAll (v : ABitVector wide) (numBits : Nat) : Option (ABitVector wide) :=
  if numBits = 0 then some v
  else do
    let v ← growTo v numBits true false
    let lastWordIndex := sizeInWords wide numBits - 1
    let v ← setWords v (BitVec.allOnes _) lastWordIndex 0
    setBits v (numBits - lastWordIndex * kBitWordSize wide) (lastWordIndex * kBitWordSize wide)

-- The rest of the vector is cleared when it is longer.
def copyWords (v adoptVector : ABitVector wide) : Option (ABitVector wide) :=
  let bitsToCopy := min adoptVector.fNumBits v.fNumBits
  let copied := sizeInWords wide bitsToCopy
  if copied ≤ v.fBitWords.length ∧ copied ≤ adoptVector.fBitWords.length ∧ sizeInWords wide v.fNumBits ≤ v.fBitWords.length then
    some {v with fBitWords := adoptVector.fBitWords.take copied ++ List.replicate (sizeInWords wide v.fNumBits - copied) 0 ++
                                v.fBitWords.drop (max copied (sizeInWords wide v.fNumBits))}
  else none

end Vector

section Vectors
variable {wide : Bool}

-- The output of an operation may be one of its operands.
abbrev Vectors (wide : Bool) := Nat → ABitVector wide

def Vectors.set (vs : Vectors wide) (a : Nat) (v : ABitVector wide) : Vectors wide := fun i => if i = a then v else vs i

def growVector (vs : Vectors wide) (a newBitSize : Nat) (geometric : Bool) : Option (Vectors wide) := do
  some (vs.set a (← growTo (vs a) newBitSize geometric false))

def adopt (vs : Vectors wide) (a b : Nat) : Option (Vectors wide) :=
  if (vs b).fNumBits = 0 ∧ (vs b).isNull then some (vs.set a (clearToNull (vs a)))
  else do
    let vs ← growVector vs a (vs b).fNumBits false
    some (vs.set a (← copyWords (vs a) (vs b)))

-- The words of one vector, each with the mark that it changed.
def storeWords (value : Vectors wide → Nat → Option (Word wide × Bool)) (c : Nat) : Nat → Nat → Vectors wide × Bool → Option (Vectors wide × Bool)
  | 0,_,s => some s
  | n + 1,i,(vs,changed) => do
      let (word,differs) ← value vs i
      storeWords value c n (i + 1) (vs.set c (← setWordAt (vs c) i word),changed || differs)

def combined (f : Word wide → Word wide → Word wide) (a b : Nat) (vs : Vectors wide) (wordIndex : Nat) : Option (Word wide × Bool) := do
  let thisWord ← wordAt (vs a) wordIndex
  let inputWord ← wordAt (vs b) wordIndex
  let newWord := f thisWord inputWord
  some (newWord,newWord != thisWord)

def copied (a : Nat) (vs : Vectors wide) (wordIndex : Nat) : Option (Word wide × Bool) := do some (← wordAt (vs a) wordIndex,false)

def zeroed (_ : Vectors wide) (_ : Nat) : Option (Word wide × Bool) := some (0,false)

def storeTail (keepsThis keepsInput : Bool) (a b c thisWordSize inputWordSize : Nat) (s : Vectors wide × Bool) : Option (Vectors wide × Bool) :=
  let wordIndex := min thisWordSize inputWordSize
  if inputWordSize < thisWordSize then storeWords (if keepsThis then copied a else zeroed) c (thisWordSize - wordIndex) wordIndex s
  else storeWords (if keepsInput then copied b else zeroed) c (inputWordSize - wordIndex) wordIndex s

/- The words both have are combined; where only this vector or only the input has words,
they are kept or cleared; the rest of the output is cleared. -/
def combineInto (f : Word wide → Word wide → Word wide) (keepsThis keepsInput : Bool) (vs : Vectors wide) (a b c : Nat) :
    Option (Vectors wide × Bool) := do
  let thisWordSize := sizeInWords wide (vs a).fNumBits
  let inputWordSize := sizeInWords wide (vs b).fNumBits
  let smallerWordSize := min thisWordSize inputWordSize
  let largerWordSize := max thisWordSize inputWordSize
  let vs ← growVector vs c (largerWordSize * kBitWordSize wide % 2 ^ 32) false
  let outputWordSize := sizeInWords wide (vs c).fNumBits
  let (vs,changed) ← storeWords (combined f a b) c smallerWordSize 0 (vs,false)
  let s ← storeTail keepsThis keepsInput a b c thisWordSize inputWordSize (vs,changed || decide (smallerWordSize < largerWordSize))
  storeWords zeroed c (outputWordSize - largerWordSize) largerWordSize s

inductive Operator where
  | and
  | andc
  | or
  | xor
  deriving DecidableEq, Repr

def Operator.word : Operator → Word wide → Word wide → Word wide
  | and,x,y => x &&& y
  | andc,x,y => x &&& ~~~y
  | or,x,y => x ||| y
  | xor,x,y => x ^^^ y

def andInto (vs : Vectors wide) (a b c : Nat) : Option (Vectors wide × Bool) := combineInto Operator.and.word false false vs a b c

def andcInto (vs : Vectors wide) (a b c : Nat) : Option (Vectors wide × Bool) := combineInto Operator.andc.word true false vs a b c

def orInto (vs : Vectors wide) (a b c : Nat) : Option (Vectors wide × Bool) := combineInto Operator.or.word true true vs a b c

def xorInto (vs : Vectors wide) (a b c : Nat) : Option (Vectors wide × Bool) := combineInto Operator.xor.word true true vs a b c

def Operator.into : Operator → Vectors wide → Nat → Nat → Nat → Option (Vectors wide × Bool)
  | and => andInto
  | andc => andcInto
  | or => orInto
  | xor => xorInto

-- Or and Xor grow first.
def Operator.inPlace : Operator → Vectors wide → Nat → Nat → Option (Vectors wide × Bool)
  | and,vs,a,b => andInto vs a b a
  | andc,vs,a,b => andcInto vs a b a
  | or,vs,a,b => do orInto (← growVector vs a (vs b).fNumBits false) a b a
  | xor,vs,a,b => do xorInto (← growVector vs a (vs b).fNumBits false) a b a

end Vectors

section Queries
variable {wide : Bool}

def valueAt (v : ABitVector wide) (bitIndex : Nat) : Option Bool :=
  if v.fNumBits ≤ bitIndex then some false
  else do
    let word ← wordAt v (bitIndex / kBitWordSize wide)
    some (word <<< (bitIndex % kBitWordSize wide) >>> (kBitWordSize wide - 1) != 0)

def allWords (test : Nat → Option Bool) : Nat → Nat → Option Bool
  | 0,_ => some true
  | n + 1,i => do if ← test i then allWords test n (i + 1) else some false

def zeroWord (v : ABitVector wide) (i : Nat) : Option Bool := do some ((← wordAt v i) == 0)

def equal (v w : ABitVector wide) : Option Bool := do
  let common := sizeInWords wide (min v.fNumBits w.fNumBits)
  if ← allWords (fun i => do some ((← wordAt v i) == (← wordAt w i))) common 0 then
    if common * kBitWordSize wide < v.fNumBits then allWords (zeroWord v) (sizeInWords wide v.fNumBits - common) common
    else if common * kBitWordSize wide < w.fNumBits then allWords (zeroWord w) (sizeInWords wide w.fNumBits - common) common
    else some true
  else some false

def isZero (v : ABitVector wide) : Option Bool := allWords (zeroWord v) (sizeInWords wide v.fNumBits) 0

def intersects (v w : ABitVector wide) : Option Bool := do
  let smallerWordSize := min (sizeInWords wide v.fNumBits) (sizeInWords wide w.fNumBits)
  some !(← allWords (fun i => do some ((← wordAt v i) &&& (← wordAt w i) == 0)) smallerWordSize 0)

def isSubset (v w : ABitVector wide) : Option Bool := do
  let smallerWordSize := min (sizeInWords wide v.fNumBits) (sizeInWords wide w.fNumBits)
  if ← allWords (fun i => do some ((← wordAt v i) &&& ~~~(← wordAt w i) == 0)) smallerWordSize 0 then
    allWords (zeroWord v) (sizeInWords wide v.fNumBits - smallerWordSize) smallerWordSize
  else some false

-- The first word that is not zero, or the index after the last.
def firstWord (v : ABitVector wide) : Nat → Nat → Option Nat
  | 0,i => some i
  | n + 1,i => do if (← wordAt v i) = 0 then firstWord v n (i + 1) else some i

def firstOne (v : ABitVector wide) : Option Nat := do
  let vectorWordSize := sizeInWords wide v.fNumBits
  let wordIndex ← firstWord v vectorWordSize 0
  if vectorWordSize ≤ wordIndex then some 0
  else some (wordIndex * kBitWordSize wide + leadingZeroes wide (← wordAt v wordIndex))

def lastWord (v : ABitVector wide) : Nat → Nat → Nat → Option Nat
  | 0,_,lastIndex => some lastIndex
  | n + 1,i,lastIndex => do lastWord v n (i + 1) (if (← wordAt v i) ≠ 0 then i else lastIndex)

def lastOne (v : ABitVector wide) : Option Nat := do
  let vectorWordSize := sizeInWords wide v.fNumBits
  let lastIndex ← lastWord v vectorWordSize 0 0
  if vectorWordSize ≤ lastIndex then some 0
  else
    let word ← wordAt v lastIndex
    if word = 0 then some 0
    else some (lastIndex * kBitWordSize wide + kBitWordSize wide - trailingZeroes wide word - 1)

def countWords (v : ABitVector wide) : Nat → Nat → Nat → Option Nat
  | 0,_,popCount => some popCount
  | n + 1,i,popCount => do countWords v n (i + 1) ((popCount + populationCount wide (← wordAt v i)) % 2 ^ 32)

def population (v : ABitVector wide) (numBits : Nat) : Option Nat :=
  if numBits = 0 then some 0
  else do
    let thisWordSize := sizeInWords wide v.fNumBits
    let lastWord := min thisWordSize ((sizeInWords wide ((numBits + 1) % 2 ^ 32) + 2 ^ 32 - 1) % 2 ^ 32)
    let popCount ← countWords v lastWord 0 0
    if lastWord < thisWordSize ∧ numBits % kBitWordSize wide ≠ 0 then
      let testWord := (← wordAt v lastWord) >>> (kBitWordSize wide - numBits % kBitWordSize wide)
      some ((popCount + populationCount wide testWord) % 2 ^ 32)
    else some popCount

def allBits : Nat := 0xEFFFFFFF

end Queries

section Cursor
variable {wide : Bool}

structure Cursor (wide : Bool) where
  fWord : Word wide
  fIndex : Nat
  fWordCount : Nat

def newCursor (v : ABitVector wide) : Cursor wide := ⟨0,0,sizeInWords wide v.fNumBits⟩

def Cursor.valid (c : Cursor wide) : Bool := c.fIndex < c.fWordCount * kBitWordSize wide

def nextWord (v : ABitVector wide) : Nat → Nat → Option (Nat × Option (Word wide))
  | 0,wordIndex => some (wordIndex,none)
  | n + 1,wordIndex => do
      let word ← wordAt v wordIndex
      if word ≠ 0 then some (wordIndex,some word) else nextWord v n (wordIndex + 1)

def Cursor.atBit (c : Cursor wide) (word : Word wide) (fIndex : Nat) : Cursor wide :=
  let count := leadingZeroes wide word
  {c with fWord := word <<< count,fIndex := fIndex + count}

def setToNextOne (v : ABitVector wide) (c : Cursor wide) : Option (Cursor wide × Bool) := do
  let c := {c with fWord := c.fWord <<< 1,fIndex := c.fIndex + 1}
  if c.fWord = 0 then
    let wordIndex := (c.fIndex + kBitWordSize wide - 1) / kBitWordSize wide
    match ← nextWord v (c.fWordCount - wordIndex) wordIndex with
    | (wordIndex,some word) => some (c.atBit word (wordIndex * kBitWordSize wide),true)
    | (wordIndex,none) => some ({c with fIndex := wordIndex * kBitWordSize wide},false)
  else some (c.atBit c.fWord c.fIndex,true)

def setToNextOneAfter (v : ABitVector wide) (c : Cursor wide) (n : Nat) : Option (Cursor wide × Bool) := do
  let c := {c with fWordCount := sizeInWords wide v.fNumBits,fIndex := n}
  if !c.valid then some ({c with fIndex := c.fWordCount * kBitWordSize wide},false)
  else
    let word ← wordAt v (n / kBitWordSize wide)
    let c := {c with fWord := word <<< (n % kBitWordSize wide)}
    if c.fWord &&& kHighBit wide ≠ 0 then some (c,true) else setToNextOne v c

def setToFirstOne (v : ABitVector wide) (c : Cursor wide) : Option (Cursor wide × Bool) := setToNextOneAfter v c 0

-- The indices from a cursor on, as a loop over it sees them.
def visited (v : ABitVector wide) : Nat → Cursor wide → Option (List Nat)
  | 0,_ => none
  | fuel + 1,c => if c.valid then do some (c.fIndex::(← visited v fuel (← setToNextOne v c).1)) else some []

end Cursor

end OmrCompiler.DenseBits
