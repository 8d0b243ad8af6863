import OmrCompiler.HashTableGrow

/-! A hash table is a finite map in every state of a run. -/
namespace OmrCompiler.HashTable
open IndexChain

variable {K D : Type} {info : HashInfo K} {t t' source : Table K D} {m m' : K → Option D} {free : List Nat} {chains : Nat → List Nat} {key : K} {data : D}
  {item : Item K D} {fuel hashIndex hashValue h v i n x : Nat}

/- The searches of add and get. -/

theorem Good.locate (good : Good info t) (i : Nat) (given : hashValue = 0 ∨ hashValue = info.hash key) :
    (∃ x item, (t.table x).item = some item ∧ info.equal key item.key = true ∧ locate info key i hashValue t = some (true,x,info.hash key)) ∨
    (∃ p hashValue', locate info key i hashValue t = some (false,p,hashValue') ∧ (hashValue' = 0 ∨ hashValue' = info.hash key)) ∧
      ∀ item, Has t item → info.equal key item.key = false := by
  rcases good with bare | ⟨free,chains,shape⟩
  · refine .inr ⟨⟨i,hashValue,if_pos bare.1,given⟩,?_⟩
    rintro item ⟨x,at'⟩
    rw [bare.2.2] at at'
    cases at'
  · rcases shape.locate i given with found | ⟨p,located,-,absent⟩
    · exact .inl found
    · refine .inr ⟨⟨p,_,located,.inr rfl⟩,?_⟩
      rintro item ⟨x,at'⟩
      exact absent x item at'

theorem Shape.addAt (shape : Shape info t free chains) (i : Nat) (data : D) (given : hashValue = 0 ∨ hashValue = info.hash key)
    (absent : ∀ item, Has t item → info.equal key item.key = false) (room : free ≠ []) :
    ∃ p index t', HashTable.locate info key i hashValue t = some (false,p,info.hash key) ∧ HashTable.place ⟨key,data,info.hash key⟩ p t = some (index,t') ∧
      Added t ⟨key,data,info.hash key⟩ index t' ∧ Good info t' := by
  rcases shape.locate i given with ⟨x,item,at',same,-⟩ | ⟨p,located,spot,none'⟩
  · rw [absent item ⟨x,at'⟩] at same
    cases same
  · obtain ⟨index,t',free',chains',placed,added,after,-⟩ := @Shape.place K D info t free chains ⟨key,data,info.hash key⟩ p shape rfl spot none' fun _ => room
    exact ⟨p,index,t',located,placed,added,.inr ⟨free',chains',after⟩⟩

-- Whether add can take a new key: there is a free slot, or the table can grow.
def Space (t : Table K D) : Prop := t.nextFree ≠ 0 ∨ ¬ Limit t

theorem Good.addNew (good : Good info t) (i : Nat) (data : D) (given : hashValue = 0 ∨ hashValue = info.hash key)
    (absent : ∀ item, Has t item → info.equal key item.key = false) (space : Space t) :
    ∃ index t', add info key data i hashValue false t = some (true,index,t') ∧ Good info t' ∧ (Highest t → Highest t') ∧
      ∀ other, Has t' other ↔ other = ⟨key,data,info.hash key⟩ ∨ Has t other := by
  rcases good.locate i given with ⟨x,item,at',same,-⟩ | ⟨⟨p,hashValue',located,given'⟩,-⟩
  · rw [absent item ⟨x,at'⟩] at same
    cases same
  · by_cases full : t.nextFree = 0
    · obtain ⟨u,free,chains,ran,grown,more⟩ := good.grow (space.resolve_left (not_not_intro full))
      obtain ⟨p',index,t',located',placed,added,after⟩ := grown.shape.addAt p data given' (fun item has => absent item ((grown.has item).mp has)) more
      refine ⟨index,t',?_,after,fun _ => added.isHighest grown.highest,fun other => by rw [added.has,grown.has]⟩
      simp only [add,Bool.false_eq_true,if_false,located,full,if_true,ran,located',placed,Option.bind_eq_bind,Option.bind_some]
    · rcases good with bare | ⟨free,chains,shape⟩
      · exact absurd bare.2.1 full
      · obtain ⟨p',index,t',located',placed,added,after⟩ := shape.addAt i data given absent (shape.freeLinked.nonempty.mpr full)
        refine ⟨index,t',?_,after,added.isHighest,added.has⟩
        simp only [add,Bool.false_eq_true,if_false,located',full,placed,Option.bind_eq_bind,Option.bind_some]

theorem Good.addFull (good : Good info t) (i : Nat) (data : D) (given : hashValue = 0 ∨ hashValue = info.hash key)
    (absent : ∀ item, Has t item → info.equal key item.key = false) (space : ¬ Space t) : add info key data i hashValue false t = none := by
  have full : t.nextFree = 0 := by
    by_contra other
    exact space (.inl other)
  have limit : Limit t := by
    by_contra other
    exact space (.inr other)
  rcases good.locate i given with ⟨x,item,at',same,-⟩ | ⟨⟨p,hashValue',located,-⟩,-⟩
  · rw [absent item ⟨x,at'⟩] at same
    cases same
  · simp only [add,Bool.false_eq_true,if_false,located,full,if_true,limit.grow,Option.bind_eq_bind,Option.bind_some,Option.bind_none]

theorem addOld {i x : Nat} (located : locate info key i hashValue t = some (true,x,info.hash key)) (data : D) :
    add info key data i hashValue false t = some (false,x,t) := by
  simp only [add,Bool.false_eq_true,if_false,located,if_true,Option.bind_eq_bind,Option.bind_some]

-- An add after a search that has not found the key.
theorem addLocated {i hashValue' : Nat} (located : locate info key i hashValue' t = some (false,hashIndex,hashValue)) (data : D) :
    add info key data hashIndex hashValue true t = add info key data i hashValue' false t := by
  simp only [add,if_true,Bool.false_eq_true,if_false,located,Option.bind_eq_bind,Option.bind_some]

/- Removals. -/

theorem Removed.validIff' (removed : Removed t h v t') (validH : t.valid h = true) (validV : t.valid v = true) :
    t'.valid x = true ↔ x ≠ v ∧ t.valid x = true := by
  rw [Table.valid,removed.items]
  by_cases here : x = v
  · simp [here]
  · rw [if_neg here]
    by_cases there : x = h
    · rw [if_pos there,there]
      have both : (t.table v).item.isSome = true := validV
      simp [both,validH,show h ≠ v from there ▸ here]
    · rw [if_neg there]
      simp [here,Table.valid]

theorem walkBackwardSpec (n : Nat) : walkBackward t n ≤ n ∧ (∀ x, t.valid x = true → x ≤ n → x ≤ walkBackward t n) ∧
    (walkBackward t n ≠ 0 → t.valid (walkBackward t n) = true) := by
  induction n with
  | zero => exact ⟨Nat.le_refl 0,fun x _ bound => bound,fun positive => absurd rfl positive⟩
  | succ n ih =>
      rw [walkBackward]
      split
      · rename_i valid
        exact ⟨Nat.le_refl _,fun x _ bound => bound,fun _ => valid⟩
      · rename_i invalid
        refine ⟨Nat.le_trans ih.1 (Nat.le_succ n),fun x valid bound => ih.2.1 x valid ?_,ih.2.2⟩
        have other : x ≠ n + 1 := fun same => invalid (same ▸ valid)
        omega

theorem Removed.isHighest (removed : Removed t h v t') (validH : t.valid h = true) (validV : t.valid v = true) (positive : 1 ≤ v) (highest : Highest t) :
    Highest t' := by
  have valid' : ∀ x, t'.valid x = true ↔ x ≠ v ∧ t.valid x = true := fun x => removed.validIff' validH validV
  have bound : ∀ x, t'.valid x = true → x ≤ t.highestIndex ∧ x ≠ v := fun x valid => ⟨highest.bound x ((valid' x).mp valid).2,((valid' x).mp valid).1⟩
  by_cases top : v = t.highestIndex
  · obtain ⟨-,below,used⟩ := @walkBackwardSpec K D t' (v - 1)
    have lowered := removed.highest
    rw [if_pos top] at lowered
    refine ⟨fun x valid => ?_,fun some' => ?_⟩
    · rw [lowered]
      refine below x valid ?_
      have under := bound x valid
      omega
    · rw [lowered] at some' ⊢
      exact used some'
  · have kept := removed.highest
    rw [if_neg top] at kept
    refine ⟨fun x valid => kept ▸ (bound x valid).1,fun some' => ?_⟩
    rw [kept] at some' ⊢
    exact (valid' _).mpr ⟨fun same => top same.symm,highest.used some'⟩

theorem Removed.has (removed : Removed t h v t') (shape : Shape info t free chains) (at' : (t.table h).item = some item)
    (other : Item K D) : Has t' other ↔ Has t other ∧ info.equal other.key item.key = false := by
  constructor
  · rintro ⟨x,there⟩
    obtain ⟨differ,old⟩ := removed.origin there
    refine ⟨⟨_,old⟩,?_⟩
    cases same : info.equal other.key item.key with
    | false => rfl
    | true =>
        have together := shape.distinct old at' same
        split at together
        · rename_i here
          exact absurd (here.trans together.symm) differ
        · rename_i there
          exact absurd together there
  · rintro ⟨⟨x,old⟩,differ⟩
    have notH : x ≠ h := by
      intro same
      rw [same,at'] at old
      cases old
      rw [info.refl] at differ
      cases differ
    by_cases here : x = v
    · have moved : h ≠ v := fun same => notH (here.trans same.symm)
      exact ⟨h,by rw [removed.items,if_neg moved,if_pos rfl,← here]; exact old⟩
    · exact ⟨x,by rw [removed.items,if_neg here,if_neg notH]; exact old⟩

theorem Good.remove (good : Good info t) (at' : (t.table h).item = some item) :
    ∃ t', remove h t = some t' ∧ Good info t' ∧ (Highest t → Highest t') ∧ ∀ other, Has t' other ↔ Has t other ∧ info.equal other.key item.key = false := by
  rcases good with bare | ⟨free,chains,shape⟩
  · rw [bare.2.2] at at'
    cases at'
  · obtain ⟨t',v,free',chains',ran,removed,validV,after⟩ := shape.remove at'
    obtain ⟨other,atV⟩ := validIff.mp validV
    exact ⟨t',ran,.inr ⟨free',chains',after⟩,removed.isHighest (validIff.mpr ⟨item,at'⟩) validV (shape.positive atV),removed.has shape at'⟩

/- The cursor. -/

theorem visitsFrom (index : Nat) (first : 1 ≤ index) (ends : index + n = t.tableSize) (enough : n ≤ fuel) :
    visits t fuel (nextFrom t n index) = (List.range' index n).filter fun x => t.valid x := by
  induction n generalizing index fuel with
  | zero => cases fuel <;> simp [visits,nextFrom]
  | succ n ih =>
      cases fuel with
      | zero => omega
      | succ fuel =>
          rw [nextFrom,List.range'_succ,List.filter_cons]
          cases valid : t.valid index with
          | true =>
              rw [if_pos rfl,visits,if_pos ⟨by omega,valid⟩,if_pos rfl,setToNext,show t.tableSize - (index + 1) = n by omega,
                ih (index + 1) (by omega) (by omega) (by omega)]
          | false =>
              rw [if_neg (by simp),if_neg (by simp)]
              exact ih (index + 1) (by omega) (by omega) (by omega)

theorem visitedEntries (t : Table K D) : visited t = (List.range' 1 (t.tableSize - 1)).filter fun x => t.valid x := by
  unfold visited setToNext
  cases size : t.tableSize with
  | zero => rfl
  | succ n =>
      have all := @visitsFrom K D t (n + 1) n 1 (Nat.le_refl 1) (by omega) (by omega)
      simpa using all

theorem Good.range (good : Good info t) (valid : t.valid x = true) : 1 ≤ x ∧ x < t.tableSize := by
  obtain ⟨item,at'⟩ := validIff.mp valid
  rcases good with bare | ⟨free,chains,shape⟩
  · rw [bare.2.2] at at'
    cases at'
  · exact ⟨shape.positive at',shape.inside at'⟩

theorem Good.cursor (good : Good info t) : (visited t).Nodup ∧ ∀ x, x ∈ visited t ↔ t.valid x = true := by
  rw [visitedEntries]
  refine ⟨List.Nodup.filter _ List.nodup_range',fun x => ?_⟩
  rw [List.mem_filter,List.mem_range'_1]
  refine ⟨fun both => both.2,fun valid => ⟨?_,valid⟩⟩
  have range := good.range valid
  omega

/- Copies. -/

theorem Shape.transfer (shape : Shape info t free chains) (same : ∀ x, x < t.tableSize → t'.table x = t.table x)
    (none' : ∀ x, t.tableSize ≤ x → (t'.table x).item = none) (size : t'.tableSize = t.tableSize) (mask : t'.mask = t.mask) (nextFree : t'.nextFree = t.nextFree) :
    Shape info t' free chains := by
  have items : ∀ x, (t'.table x).item = (t.table x).item := by
    intro x
    rcases Nat.lt_or_ge x t.tableSize with below | above
    · rw [same x below]
    · rw [none' x above]
      cases at' : (t.table x).item with
      | none => rfl
      | some item => exact absurd (shape.inside at') (by omega)
  have valid : ∀ x, t'.valid x = t.valid x := fun x => by rw [Table.valid,Table.valid,items]
  have chain : ∀ x, x < t.tableSize → t'.chain x = t.chain x := fun x below => by rw [Table.chain,Table.chain,same x below]
  refine ⟨?_,?_,fun {x item} at' => ?_,fun {x item} at' => ?_,fun {x item} at' low => ?_,fun {x item} at' => ?_,?_,fun x => ?_,fun {b} low ok => ?_,
    fun {b} low ok x => ?_,fun {x y a b} atX atY => ?_⟩
  · rw [mask]
    exact shape.power
  · rw [mask,size]
    exact shape.size
  · rw [size]
    exact shape.inside (items x ▸ at')
  · exact shape.hashed (items x ▸ at')
  · rw [mask] at low ⊢
    exact shape.closed (items x ▸ at') low
  · rw [mask,valid]
    exact shape.headed (items x ▸ at')
  · rw [nextFree]
    exact shape.freeLinked.congr fun x on => chain x ((shape.freeIff x).mp on).2.1
  · rw [mask,size,items]
    exact shape.freeIff x
  · rw [mask] at low
    rw [valid] at ok
    refine (shape.linked low ok).congr fun x on => chain x ?_
    obtain ⟨item,at',-⟩ := (shape.chainIff low ok x).mp on
    exact shape.inside at'
  · rw [mask] at low ⊢
    rw [valid] at ok
    simp only [items]
    exact shape.chainIff low ok x
  · exact shape.distinct (items x ▸ atX) (items y ▸ atY)

-- The entries of a table up to its size, and nothing behind them.
theorem Good.transfer (good : Good info t) (same : ∀ x, x < t.tableSize → t'.table x = t.table x) (none' : ∀ x, t.tableSize ≤ x → (t'.table x).item = none)
    (size : t'.tableSize = t.tableSize) (mask : t'.mask = t.mask) (nextFree : t'.nextFree = t.nextFree) :
    Good info t' ∧ ∀ x, (t'.table x).item = (t.table x).item := by
  refine ⟨?_,fun x => ?_⟩
  · rcases good with bare | ⟨free,chains,shape⟩
    · refine .inl ⟨size.trans bare.1,nextFree.trans bare.2.1,fun x => none' x ?_⟩
      rw [bare.1]
      exact Nat.zero_le x
    · exact .inr ⟨free,chains,shape.transfer same none' size mask nextFree⟩
  · rcases Nat.lt_or_ge x t.tableSize with below | above
    · rw [same x below]
    · rw [none' x above]
      cases at' : (t.table x).item with
      | none => rfl
      | some item =>
          have range := good.range (validIff.mpr ⟨item,at'⟩)
          omega

theorem Good.copy (good : Good info t) : Good info (copyConstruct t) ∧ ∀ x, ((copyConstruct t).table x).item = (t.table x).item :=
  good.transfer (fun x below => if_pos below) (fun x above => by simp [copyConstruct,Nat.not_lt.mpr above]) rfl rfl rfl

theorem Good.assign (good : Good info t) (from' : Good info source) :
    Good info (assign t source) ∧ ∀ x, ((HashTable.assign t source).table x).item = (source.table x).item := by
  refine from'.transfer (fun x below => if_pos below) (fun x above => ?_) rfl rfl rfl
  simp only [HashTable.assign]
  rw [if_neg (Nat.not_lt.mpr above)]
  split
  · rfl
  · rename_i beyond
    cases at' : (t.table x).item with
    | none => rfl
    | some item => exact absurd (good.range (validIff.mpr ⟨item,at'⟩)).2 beyond

end OmrCompiler.HashTable
