import OmrCompiler.BinaryRecorder

/-! What the binary recorder writes is read back as long as identifiers stay narrow
and no number of 16 bits has a high byte. -/
namespace OmrCompiler.BinaryRecorder
open LittleEndian (Byte bytesOf)

section Bytes

theorem maskedByte (x k : Nat) : (x &&& 255 <<< k) >>> k % 256 = x / 2 ^ k % 256 := by
  have low : x >>> k &&& 255 = x >>> k % 256 := Nat.and_two_pow_sub_one_eq_mod (x >>> k) 8
  rw [Nat.shiftRight_and_distrib,Nat.shiftLeft_shiftRight,low,Nat.shiftRight_eq_div_pow,Nat.mod_mod]

theorem byteAt {w : Nat} (num mask : BitVec w) (k : Nat) (masks : mask.toNat = 255 <<< k) :
    ((num &&& mask) >>> k).setWidth 8 = BitVec.ofNat 8 (num.toNat / 2 ^ k) := by
  apply BitVec.eq_of_toNat_eq
  rw [BitVec.toNat_setWidth,BitVec.toNat_ushiftRight,BitVec.toNat_and,masks,BitVec.toNat_ofNat]
  exact maskedByte num.toNat k

theorem lowByte {w : Nat} (num mask : BitVec w) (masks : mask.toNat = 255) : (num &&& mask).setWidth 8 = BitVec.ofNat 8 num.toNat := by
  have taken := byteAt num mask 0 masks
  rwa [BitVec.ushiftRight_zero,Nat.pow_zero,Nat.div_one] at taken

theorem number8Bytes (num : BitVec 8) : number8 num = bytesOf 1 num.toNat := by
  simp [number8,bytesOf]

theorem number32Bytes (num : BitVec 32) : number32 num = bytesOf 4 num.toNat := by
  simp only [number32,bytesOf,Nat.div_div_eq_div_mul]
  rw [lowByte num _ rfl,byteAt num _ 8 rfl,byteAt num _ 16 rfl,byteAt num _ 24 rfl] <;> rfl

theorem number64Bytes (num : BitVec 64) : number64 num = bytesOf 8 num.toNat := by
  simp only [number64,bytesOf,Nat.div_div_eq_div_mul]
  rw [lowByte num _ rfl,byteAt num _ 8 rfl,byteAt num _ 16 rfl,byteAt num _ 24 rfl,byteAt num _ 32 rfl,byteAt num _ 40 rfl,
    byteAt num _ 48 rfl,byteAt num _ 56 rfl] <;> rfl

-- The high byte is always zero.
theorem number16Bytes (num : BitVec 16) : number16 num = bytesOf 2 (num.toNat % 256) := by
  have high : (((num &&& 0xFF00#16).setWidth 8).setWidth 32 >>> 8).setWidth 8 = 0#8 := by
    apply BitVec.eq_of_toNat_eq
    rw [BitVec.toNat_setWidth,BitVec.toNat_ushiftRight,BitVec.toNat_setWidth,Nat.shiftRight_eq_div_pow]
    simp
  have low : num.setWidth 8 &&& 0xFF#8 = BitVec.ofNat 8 (num.toNat % 256) := by
    have all : (0xFF#8) = BitVec.allOnes 8 := rfl
    rw [all,BitVec.and_allOnes]
    apply BitVec.eq_of_toNat_eq
    simp
  have none' : num.toNat % 256 / 256 = 0 := Nat.div_eq_of_lt (Nat.mod_lt _ (by decide))
  simp only [number16,bytesOf]
  rw [none']
  exact congrArg₂ _ low (congrArg (fun b => [b]) high)

end Bytes

section Readable
variable {items more : List Item} {bytes rest : List Byte}

-- Whatever follows, the items are read back and the reader is as before.
def Readable (items : List Item) (bytes : List Byte) : Prop :=
  ∀ rest, readItems opened (bytes ++ rest) (items.map Item.kind) = some (items,opened,rest)

theorem Readable.none : Readable [] [] := fun _ => rfl

theorem Readable.append {bytes' : List Byte} (first : Readable items bytes) (second : Readable more bytes') :
    Readable (items ++ more) (bytes ++ bytes') := by
  intro rest
  have all := first (bytes' ++ rest)
  rw [← List.append_assoc] at all
  -- The reading of the first part is followed by that of the second.
  have joined : ∀ (kinds : List Kind) {reader : Reader} {b : List Byte} {got : List Item} {left : List Byte},
      readItems reader b kinds = some (got,opened,left) → readItems opened left (more.map Item.kind) = some (more,opened,rest) →
      readItems reader b (kinds ++ more.map Item.kind) = some (got ++ more,opened,rest) := by
    intro kinds
    induction kinds with
    | nil =>
        intro reader b got left read after
        cases read
        exact after
    | cons kind kinds ih =>
        intro reader b got left read after
        simp only [readItems,bind,Option.bind_eq_some_iff] at read
        obtain ⟨⟨item,reader',b'⟩,one,⟨items',reader'',b''⟩,others,last⟩ := read
        cases Option.some.inj last
        rw [List.cons_append,readItems,one]
        change (readItems reader' b' (kinds ++ more.map Item.kind)).bind _ = _
        rw [ih others after]
        rfl
  rw [List.map_append]
  exact joined _ all (second rest)

theorem Readable.one {item : Item} (read : ∀ rest, readItem opened (bytes ++ rest) item.kind = some (item,opened,rest)) :
    Readable [item] bytes := by
  intro rest
  change readItems opened (bytes ++ rest) [item.kind] = _
  rw [readItems,read]
  rfl

theorem readableNumber {size : Nat} (num : BitVec (8 * size)) : Readable [.number size num] (bytesOf size num.toNat) := by
  refine .one fun rest => ?_
  have fits : num.toNat < 256 ^ size := by
    have below := num.isLt
    rwa [Nat.pow_mul] at below
  rw [Item.kind,readItem,LittleEndian.readBytes fits]
  change some (Item.number size (BitVec.ofNat (8 * size) num.toNat),_,_) = _
  rw [BitVec.ofNat_toNat,BitVec.setWidth_eq]

theorem readStringBytes {text : List Byte} (short : Short text) (rest : List Byte) :
    readString (number16 (BitVec.ofNat 16 text.length) ++ text ++ rest) = some (text,rest) := by
  have below : text.length < 256 := short
  have len : (BitVec.ofNat 16 text.length).toNat % 256 = text.length := by
    rw [BitVec.toNat_ofNat]
    omega
  rw [number16Bytes,len,List.append_assoc,readString,LittleEndian.readBytes (by omega)]
  exact LittleEndian.takeAppend text rest

theorem readIDBytes {id : Nat} (fits : id < 256) (fuel : Nat) (rest : List Byte) :
    readID (fuel + 1) opened (number8 (BitVec.ofNat 8 id) ++ rest) = some (id,opened,rest) := by
  have same : number8 (BitVec.ofNat 8 id) = bytesOf 1 id := rfl
  rw [same,readID,opened,LittleEndian.readBytes (by omega)]
  rfl

theorem readableString {text : List Byte} (short : Short text) :
    Readable [.string text] (number16 (BitVec.ofNat 16 text.length) ++ text) := by
  refine .one fun rest => ?_
  rw [Item.kind,readItem,readStringBytes short]
  rfl

theorem readableID {id : Nat} (fits : id < 256) : Readable [.id id] (number8 (BitVec.ofNat 8 id)) := by
  refine .one fun rest => ?_
  rw [Item.kind,readItem,readIDBytes fits]
  rfl

theorem readableDefinition {id : Nat} {text : List Byte} (fits : id < 256) (short : Short text) (silent : announcedBy text = none) :
    Readable [.definition id text] (number8 (BitVec.ofNat 8 id) ++ (number16 (BitVec.ofNat 16 text.length) ++ text)) := by
  refine .one fun rest => ?_
  rw [Item.kind,readItem,List.append_assoc,readIDBytes fits]
  change (readString _).bind _ = _
  rw [readStringBytes short]
  change some (Item.definition id text,opened.learn id text,rest) = _
  rw [Reader.learn,silent]

theorem Readable.decodes (read : Readable items bytes) : decode (items.map Item.kind) bytes = some items := by
  have all := read []
  rw [List.append_nil] at all
  rw [decode,all]
  rfl

end Readable

section Run
variable {names : StatementNames} {r : Recorder}

structure Good (r : Recorder) : Prop where
  narrow : r.idSize = 8
  next : r.nextID ≤ 2 ^ 8 - 2
  low : ∀ {ptr id}, lookupID ptr r = some id → id < 256

theorem Good.push (h : Good r) (bytes : List Byte) : Good (push bytes r) := ⟨h.narrow,h.next,h.low⟩

-- The items a call has written.
structure Wrote (items : List Item) (r r' : Recorder) : Prop where
  good : Good r'
  same : ∀ ptr, lookupID ptr r' = lookupID ptr r
  read : ∃ bytes, r'.buf = r.buf ++ bytes ∧ Readable items bytes

theorem Wrote.trans {items more : List Item} {r' r'' : Recorder} (first : Wrote items r r') (second : Wrote more r' r'') :
    Wrote (items ++ more) r r'' := by
  obtain ⟨b,wrote,read⟩ := first.read
  obtain ⟨b',wrote',read'⟩ := second.read
  refine ⟨second.good,fun ptr => (second.same ptr).trans (first.same ptr),b ++ b',?_,read.append read'⟩
  rw [wrote',wrote,List.append_assoc]

theorem Good.wrote (h : Good r) {items : List Item} {bytes : List Byte} (read : Readable items bytes) :
    Wrote items r (BinaryRecorder.push bytes r) :=
  ⟨h.push bytes,fun _ => rfl,bytes,rfl,read⟩

theorem Good.writeID (h : Good r) {id : Nat} (fits : id < 256) : ∃ r', writeID id r = some r' ∧ Wrote [.id id] r r' :=
  ⟨_,if_pos h.narrow,h.wrote (readableID fits)⟩

theorem Good.statement (h : Good r) {s id : Nat} (found : lookupID s r = some id) :
    ∃ r', statement s r = some r' ∧ Wrote [.id id] r r' := by
  obtain ⟨r',written,wrote⟩ := h.writeID (h.low found)
  refine ⟨r',?_,wrote⟩
  rw [BinaryRecorder.statement,found]
  exact written

theorem Good.string (h : Good r) {s : List Byte} (short : Short s) : ∃ r', string s r = some r' ∧ Wrote [.string s] r r' := by
  have long : s.length < 2 ^ 15 - 1 := Nat.lt_of_lt_of_le short (by decide)
  refine ⟨_,if_pos long,(h.push _).push s,fun _ => rfl,_,?_,readableString short⟩
  exact List.append_assoc _ _ _

theorem knownOf {ptr id : Nat} (found : lookupID ptr r = some id) : knownID ptr r = true := by
  rw [knownID,← lookupID,found]
  rfl

theorem unknownOf {ptr : Nat} (new : lookupID ptr r = none) : knownID ptr r = false := by
  rw [knownID,← lookupID,new]
  rfl

theorem storeIDNew {ptr : Nat} (new : lookupID ptr r = none) (below : r.nextID ≠ 2 ^ 8 - 2) (wide : r.nextID ≠ 2 ^ 16 - 2) :
    storeID names ptr r = some { r with nextID := (r.nextID + 1) % 2 ^ 32, idMap := Function.update r.idMap ptr (some r.nextID) } := by
  have taken : getNewID names r = some (r.nextID,{ r with nextID := (r.nextID + 1) % 2 ^ 32 }) := by
    rw [getNewID,if_neg below,if_neg wide]
    rfl
  rw [BinaryRecorder.storeID,unknownOf new,taken]
  rfl

theorem Good.storeID (h : Good r) {ptr : Nat} (new : lookupID ptr r = none) (room : Narrow r) :
    ∃ r', storeID names ptr r = some r' ∧ Good r' ∧ r'.buf = r.buf ∧ lookupID ptr r' = some r.nextID := by
  have next := h.next
  have below : r.nextID ≠ 2 ^ 8 - 2 := room
  have wide : r.nextID ≠ 2 ^ 16 - 2 := by omega
  refine ⟨_,storeIDNew new below wide,⟨h.narrow,?_,?_⟩,rfl,?_⟩
  · change (r.nextID + 1) % 2 ^ 32 ≤ 2 ^ 8 - 2
    omega
  · intro p id found
    change Function.update r.idMap ptr (some r.nextID) p = some id at found
    by_cases here : p = ptr
    · rw [here,Function.update_self] at found
      cases found
      omega
    · rw [Function.update_of_ne here] at found
      exact h.low found
  · exact Function.update_self ptr (some r.nextID) r.idMap

theorem Good.beginStatement (h : Good r) {s : Nat} (plain : Plain names r (.beginStatement s)) :
    ∃ r' bytes, beginStatement names s r = some r' ∧ Good r' ∧ r'.buf = r.buf ++ bytes ∧ Readable (recorded names r (.beginStatement s)) bytes := by
  unfold BinaryRecorder.beginStatement ensureStatementDefined
  cases found : lookupID s r with
  | some id =>
      have items : recorded names r (.beginStatement s) = [.id id] := by simp only [recorded,found]
      obtain ⟨r',written,wrote⟩ := h.statement found
      obtain ⟨bytes,same,read⟩ := wrote.read
      refine ⟨r',bytes,?_,wrote.good,same,items ▸ read⟩
      rw [knownOf found]
      exact written
  | none =>
      have items : recorded names r (.beginStatement s) = [.definition r.nextID (names.text s),.id r.nextID] := by
        simp only [recorded,found]
      obtain ⟨room,short,silent⟩ := plain found
      obtain ⟨stored,store,good,buf,here⟩ := @Good.storeID names r h s found room
      -- The identifier and the text are read together, as a definition.
      have fits := good.low here
      have low : BinaryRecorder.writeID r.nextID stored = some (BinaryRecorder.push (number8 (BitVec.ofNat 8 r.nextID)) stored) := if_pos good.narrow
      have long : (names.text s).length < 2 ^ 15 - 1 := Nat.lt_of_lt_of_le short (by decide)
      have defined := good.wrote (readableDefinition fits short silent)
      have id := defined.good.statement ((defined.same s).trans here)
      obtain ⟨r',written,wrote⟩ := id
      obtain ⟨bytes,same,read⟩ := (defined.trans wrote).read
      refine ⟨r',bytes,?_,wrote.good,by rw [same,buf],items ▸ read⟩
      have first : BinaryRecorder.statement s stored = some (BinaryRecorder.push (number8 (BitVec.ofNat 8 r.nextID)) stored) := by
        rw [BinaryRecorder.statement,here]
        exact low
      have second : BinaryRecorder.string (names.text s) (BinaryRecorder.push (number8 (BitVec.ofNat 8 r.nextID)) stored) =
          some (BinaryRecorder.push (number8 (BitVec.ofNat 8 r.nextID) ++ (number16 (BitVec.ofNat 16 (names.text s).length) ++ names.text s)) stored) := by
        rw [BinaryRecorder.string,if_pos long]
        simp [BinaryRecorder.push,List.append_assoc]
      rw [unknownOf found,store]
      change ((BinaryRecorder.statement s stored).bind fun r => BinaryRecorder.string (names.text s) r).bind (BinaryRecorder.statement s) = some r'
      rw [first]
      change (BinaryRecorder.string (names.text s) _).bind (BinaryRecorder.statement s) = some r'
      rw [second]
      exact written

theorem stepRecorded (h : Good r) {call : Call} (plain : Plain names r call) :
    ∃ r' bytes, step names r call = some r' ∧ Good r' ∧ r'.buf = r.buf ++ bytes ∧ Readable (recorded names r call) bytes := by
  have wroteAll : ∀ {items r'}, step names r call = some r' → Wrote items r r' → recorded names r call = items →
      ∃ r' bytes, step names r call = some r' ∧ Good r' ∧ r'.buf = r.buf ++ bytes ∧ Readable (recorded names r call) bytes := by
    intro items r' ran wrote same
    obtain ⟨bytes,buf,read⟩ := wrote.read
    exact ⟨r',bytes,ran,wrote.good,buf,same ▸ read⟩
  cases call with
  | storeID ptr =>
      obtain ⟨r',ran,good,buf,_⟩ := @Good.storeID names r h ptr plain.1 plain.2
      exact ⟨r',[],ran,good,by rw [buf,List.append_nil],.none⟩
  | ensureAvailableID ptr =>
      cases found : lookupID ptr r with
      | some id => exact ⟨r,[],if_pos (knownOf found),h,(List.append_nil _).symm,.none⟩
      | none =>
          have unknown : ¬ knownID ptr r = true := by
            rw [unknownOf found]
            decide
          obtain ⟨r',ran,good,buf,_⟩ := @Good.storeID names r h ptr found (plain found)
          exact ⟨r',[],(if_neg unknown).trans ran,good,by rw [buf,List.append_nil],.none⟩
  | beginStatement s => exact h.beginStatement plain
  | number8 num => exact wroteAll rfl (h.wrote (number8Bytes num ▸ @readableNumber 1 num)) rfl
  | number16 num =>
      have low : number16 num = bytesOf 2 num.toNat := by rw [number16Bytes,Nat.mod_eq_of_lt plain]
      exact wroteAll rfl (h.wrote (low ▸ @readableNumber 2 num)) rfl
  | number32 num => exact wroteAll rfl (h.wrote (number32Bytes num ▸ @readableNumber 4 num)) rfl
  | number64 num => exact wroteAll rfl (h.wrote (number64Bytes num ▸ @readableNumber 8 num)) rfl
  | string s =>
      obtain ⟨_,ran,wrote⟩ := h.string plain
      exact wroteAll ran wrote rfl
  | id id =>
      obtain ⟨_,ran,wrote⟩ := h.writeID plain
      exact wroteAll ran wrote rfl
  | value ptr =>
      obtain ⟨id,found⟩ := Option.ne_none_iff_exists'.mp plain
      obtain ⟨_,ran,wrote⟩ := h.statement found
      exact wroteAll ran wrote (by rw [recorded,found]; rfl)
  | finish =>
      obtain ⟨r1,first,wrote⟩ := @Good.writeID r h 1 (by decide)
      obtain ⟨r2,second,wrote'⟩ := wrote.good.string (s := ascii "Done") (by unfold Short; decide)
      refine @wroteAll _ r2 ?_ (wrote.trans wrote') rfl
      change (writeID 1 r).bind _ = _
      rw [first]
      exact second

theorem runRecorded (h : Good r) (calls : List Call) (plain : PlainRun names r calls) :
    ∃ r' bytes, run names r calls = some r' ∧ r'.buf = r.buf ++ bytes ∧ Readable (recordedBy names r calls) bytes := by
  induction calls generalizing r with
  | nil => exact ⟨r,[],rfl,(List.append_nil _).symm,.none⟩
  | cons call calls ih =>
      obtain ⟨next,bytes,ran,good,buf,read⟩ := stepRecorded h plain.1
      have after := plain.2
      rw [ran] at after
      obtain ⟨last,bytes',ran',buf',read'⟩ := ih good after
      refine ⟨last,bytes ++ bytes',?_,by rw [buf',buf,List.append_assoc],?_⟩
      · rw [run,List.foldlM_cons,ran]
        exact ran'
      · rw [recordedBy,ran]
        exact read.append read'

theorem startGood : Good start := by
  refine ⟨rfl,by decide,fun {ptr id} found => ?_⟩
  simp only [start,lookupID,Function.update_apply] at found
  split at found
  · cases found
    decide
  · split at found
    · cases found
      decide
    · cases found

-- Without its statement's name defined before, the change of width stops the recorder.
theorem newIDStops (full : r.nextID = 2 ^ 8 - 2) (unnamed : lookupID names.id16bit r = none) (ptr : Nat) : storeID names ptr r = none := by
  have stuck : getNewID names r = none := by
    rw [getNewID,if_pos full]
    change (BinaryRecorder.statement names.id16bit { r with idSize := 16 }).bind _ = none
    rw [BinaryRecorder.statement]
    change ((lookupID names.id16bit r).bind _).bind _ = none
    rw [unnamed]
    rfl
  rw [BinaryRecorder.storeID,stuck]
  split <;> rfl

end Run

theorem recordingDecoded (names : StatementNames) (calls : List Call) (plain : PlainRun names start calls) :
    ∃ r, run names start calls = some r ∧ decode ((recordedBy names start calls).map Item.kind) r.buf = some (recordedBy names start calls) := by
  obtain ⟨r,bytes,ran,buf,read⟩ := runRecorded startGood calls plain
  refine ⟨r,ran,?_⟩
  rw [buf]
  exact read.decodes

def sampleNames : StatementNames where
  text p := if p = 100 then ascii "ID16BIT" else if p = 101 then ascii "ID32BIT" else ascii "Add"
  id16bit := 100
  id32bit := 101
  named16 := rfl
  named32 := rfl

def sampleCalls : List Call := [.storeID 5,.beginStatement 7,.value 5,.number16 200,.number64 0x123456789,.beginStatement 7,.finish]

theorem recordingDecodedSample : PlainRun sampleNames start sampleCalls ∧ ∃ r, run sampleNames start sampleCalls = some r ∧
    decode ((recordedBy sampleNames start sampleCalls).map Item.kind) r.buf = some (recordedBy sampleNames start sampleCalls) := by
  have plain : PlainRun sampleNames start sampleCalls := by decide
  exact ⟨plain,recordingDecoded sampleNames sampleCalls plain⟩

-- Identifiers taken one after the other from 200 on.
theorem storedRun (names : StatementNames) (n : Nat) (few : n ≤ 252) :
    ∃ r, run names start ((List.range n).map fun k => .storeID (k + 200)) = some r ∧ r.nextID = n + 2 ∧
      ∀ p, 1 < p → p < 200 ∨ n + 200 ≤ p → lookupID p r = none := by
  induction n with
  | zero =>
      refine ⟨start,rfl,rfl,fun p high _ => ?_⟩
      change Function.update (Function.update (fun _ => none) 0 (some 0)) 1 (some 1) p = none
      rw [Function.update_of_ne (by omega),Function.update_of_ne (by omega)]
  | succ n ih =>
      obtain ⟨r,ran,next,free⟩ := ih (by omega)
      have taken : storeID names (n + 200) r = some _ :=
        storeIDNew (free (n + 200) (by omega) (.inr (Nat.le_refl _))) (by omega) (by omega)
      refine ⟨{ r with nextID := (r.nextID + 1) % 2 ^ 32, idMap := Function.update r.idMap (n + 200) (some r.nextID) },?_,?_,
        fun p high out => ?_⟩
      · rw [List.range_succ,List.map_append,run,List.foldlM_append]
        change (run names start _).bind _ = _
        rw [ran]
        change (step names r (.storeID (n + 200))).bind some = _
        rw [step,taken]
        rfl
      · change (r.nextID + 1) % 2 ^ 32 = n + 1 + 2
        omega
      · change Function.update r.idMap (n + 200) (some r.nextID) p = none
        rw [Function.update_of_ne (by omega)]
        exact free p high (by omega)

-- A high byte is lost, and the identifier after 254 others stops the recorder.
theorem recordingLost :
    (∃ r, run sampleNames start [.number16 256] = some r ∧ decode [.number 2] r.buf = some [.number 2 0]) ∧
      (run sampleNames start ((List.range 253).map fun k => .storeID (k + 200))).isNone := by
  refine ⟨⟨_,rfl,by decide⟩,?_⟩
  obtain ⟨r,ran,next,free⟩ := storedRun sampleNames 252 (Nat.le_refl _)
  have stops : run sampleNames start ((List.range 253).map fun k => .storeID (k + 200)) = none := by
    rw [List.range_succ,List.map_append,run,List.foldlM_append]
    change (run sampleNames start _).bind _ = _
    rw [ran]
    change (step sampleNames r (.storeID (252 + 200))).bind some = _
    rw [step,newIDStops next (free 100 (by omega) (.inl (by omega)))]
    rfl
  rw [stops]
  rfl

end OmrCompiler.BinaryRecorder
