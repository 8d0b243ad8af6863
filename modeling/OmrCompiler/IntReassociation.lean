import OmrCompiler.MultiplySimplifier

/-! The rules R10, R11, R13 and R15 of imulSimplifier keep the value of the node and of what is
used elsewhere. -/
namespace OmrCompiler.IntReassociation
open MachineInt Constraint SharedGraph MultiplyDistribution MultiplyNodes MultiplyRules

section Arithmetic
variable {others : DataType → Nat → List Int → Int} {g : Trees} {n a b : Nat} {x y : Int}

theorem intProduct {p : Node} (op : p.opCode = .imul) (x y : Int) : meaning others p [x,y] = wrap 32 (x * y) := by
  simp only [meaning,exactValue,op]
  rfl

theorem intSum {p : Node} (op : p.opCode = .iadd) (x y : Int) : meaning others p [x,y] = wrap 32 (x + y) := by
  simp only [meaning,exactValue,op]
  rfl

theorem intDifference {p : Node} (op : p.opCode = .isub) (x y : Int) : meaning others p [x,y] = wrap 32 (x - y) := by
  simp only [meaning,exactValue,op]
  rfl

theorem intProductMade (two : g.children n = [a,b]) (op : opCode g n = .imul) (first : Evaluates (meaning others) g a x)
    (second : Evaluates (meaning others) g b y) : Evaluates (meaning others) g n (wrap 32 (x * y)) := by
  rw [← intProduct op]
  exact Evaluates.binary two first second

-- A node over two products.
structure OverProducts (g : Trees) (n k l a b c d : Nat) : Prop where
  two : g.children n = [k,l]
  first : g.children k = [a,b]
  second : g.children l = [c,d]
  firstOp : opCode g k = .imul
  secondOp : opCode g l = .imul

theorem OverProducts.sum {k l c d : Nat} {z w : Int} (products : OverProducts g n k l a b c d) (op : opCode g n = .iadd)
    (evalA : Evaluates (meaning others) g a x) (evalB : Evaluates (meaning others) g b y) (evalC : Evaluates (meaning others) g c z)
    (evalD : Evaluates (meaning others) g d w) : Evaluates (meaning others) g n (wrap 32 (wrap 32 (x * y) + wrap 32 (z * w))) := by
  rw [← intSum op]
  exact Evaluates.binary products.two (intProductMade products.first products.firstOp evalA evalB) (intProductMade products.second products.secondOp evalC evalD)

theorem OverProducts.difference {k l c d : Nat} {z w : Int} (products : OverProducts g n k l a b c d) (op : opCode g n = .isub)
    (evalA : Evaluates (meaning others) g a x) (evalB : Evaluates (meaning others) g b y) (evalC : Evaluates (meaning others) g c z)
    (evalD : Evaluates (meaning others) g d w) : Evaluates (meaning others) g n (wrap 32 (wrap 32 (x * y) - wrap 32 (z * w))) := by
  rw [← intDifference op]
  exact Evaluates.binary products.two (intProductMade products.first products.firstOp evalA evalB) (intProductMade products.second products.secondOp evalC evalD)

end Arithmetic

section Rules
variable {others : DataType → Nat → List Int → Int} {g : Trees} {roots : Nat → Nat} {node f s e c : Nat} {v : Int} {env : Env} {region : Trees → Nat → Bool}

-- The value of the node by those of the three operands.
theorem Inner.values (i : Inner others g roots node f s e c v) :
    ∃ u w z, Evaluates (meaning others) g e u ∧ Evaluates (meaning others) g c w ∧ Evaluates (meaning others) g s z ∧
      v = meaning others (g.payload node) [meaning others (g.payload f) [u,w],z] := by
  obtain ⟨y,z,evalF,evalS,same⟩ := i.outer.evaluates.ofBinary i.outer.two
  obtain ⟨u,w,evalE,evalC,inner⟩ := evalF.ofBinary i.two
  rw [inner] at same
  exact ⟨u,w,z,evalE,evalC,evalS,same⟩

def reassociated10 (g : Trees) (node f s e : Nat) : Trees := ((g.setChild f 0 s).setChild node 1 f).setChild node 0 e

section Rule10
variable (i : Inner others g roots node f s e c v) (op : opCode g node = .imul) (inner : opCode g f = .imul) (once : g.referenceCount f = 1)

theorem rule10Children (i : Inner others g roots node f s e c v) (k : Nat) :
    (reassociated10 g node f s e).children k = if k = node then [e,f] else if k = f then [s,c] else g.children k := by
  have other := i.outer.first.other
  simp only [reassociated10,setChildChildren]
  by_cases here : k = node
  · simp [here,i.outer.two,NodeGraph.setAt,Ne.symm other]
  · by_cases there : k = f
    · simp [there,other,i.two,NodeGraph.setAt]
    · simp [here,there]

theorem rule10Payload (g : Trees) (node f s e k : Nat) : (reassociated10 g node f s e).payload k = g.payload k := by simp [reassociated10]

theorem rule10Count (g : Trees) (node f s e k : Nat) : (reassociated10 g node f s e).referenceCount k = g.referenceCount k := by
  simp [reassociated10]

include i op inner in
theorem rule10Formed : WellFormed (reassociated10 g node f s e) roots := by
  have b := i.outer
  have other := b.first.other
  have same : ∀ d, opCode (reassociated10 g node f s e) d = opCode g d := fun d => by rw [opCode,rule10Payload,opCode]
  refine ⟨b.formed.counted.regrouped rfl (rule10Count g node f s e) (fun k inside d on => ?_) b.live b.first.live (Ne.symm other) (fun k notNode notF => ?_) fun k => ?_,
    fun k live types fixed => ?_⟩
  · rw [rule10Children i] at on
    split at on
    · rcases List.mem_cons.mp on with rfl | on
      · exact i.first.inside
      · exact List.mem_singleton.mp on ▸ b.first.inside
    · split at on
      · rcases List.mem_cons.mp on with rfl | on
        · exact b.second.inside
        · exact List.mem_singleton.mp on ▸ i.second.inside
      · exact b.formed.counted.closed k inside d on
  · rw [rule10Children i,if_neg notNode,if_neg notF]
  · rw [rule10Children i,rule10Children i,if_pos rfl,if_neg other,if_pos rfl,b.two,i.two]
    simp only [List.count_cons,List.count_nil]
    omega
  · have int : (opCode g f).type = .Int32 ∧ (opCode g s).type = .Int32 := by
      obtain ⟨_,_,two,typeA,typeB⟩ := binaryChildren b.formed b.live (by rw [op]; rfl)
      rw [b.two] at two
      cases two
      exact ⟨typeA,typeB⟩
    have int' : (opCode g e).type = .Int32 ∧ (opCode g c).type = .Int32 := by
      obtain ⟨_,_,two,typeA,typeB⟩ := binaryChildren b.formed b.first.live (by rw [inner]; rfl)
      rw [i.two] at two
      cases two
      exact ⟨typeA,typeB⟩
    rw [same] at fixed
    rw [rule10Count] at live
    rw [rule10Children i]
    simp only [same]
    split
    · rename_i here
      rw [here,op] at fixed
      cases fixed
      simp [int,int']
    · split
      · rename_i there
        rw [there,inner] at fixed
        cases fixed
        simp [int,int']
      · exact b.formed.typed k live types fixed

include i once in
theorem rule10Frame : Frame (meaning others) g (reassociated10 g node f s e) node [f] := by
  refine ⟨fun k _ other fixed => ?_,fun k on => List.mem_singleton.mp on ▸ ⟨by simp [i.outer.two],once⟩⟩
  have notF : k ≠ f := fun same => fixed (by simp [same])
  rw [rule10Payload,rule10Children i,if_neg other,if_neg notF]
  exact ⟨fun _ => rfl,rfl⟩

include i op inner once in
theorem rule10Preserved : Preserved (meaning others) g roots node (reassociated10 g node f s e) node := by
  have b := i.outer
  have frame := rule10Frame i once
  obtain ⟨u,w,z,evalE,evalC,evalS,same⟩ := Inner.values i
  rw [intProduct inner,intProduct op] at same
  have keptE := b.kept frame i.first (by simp [i.notFirst (d := e) (by simp [i.two])]) evalE
  have keptC := b.kept frame i.second (by simp [i.notFirst (d := c) (by simp [i.two])]) evalC
  have keptS := b.kept frame b.second (by simp [b.distinct once]) evalS
  have twoF : (reassociated10 g node f s e).children f = [s,c] := by rw [rule10Children i,if_neg b.first.other,if_pos rfl]
  have twoN : (reassociated10 g node f s e).children node = [e,f] := by rw [rule10Children i,if_pos rfl]
  have evalF := intProductMade twoF (by rw [opCode,rule10Payload]; exact inner) keptS keptC
  have evalN := intProductMade twoN (by rw [opCode,rule10Payload]; exact op) keptE evalF
  have value : v = wrap 32 (u * wrap 32 (z * w)) := by
    rw [same]
    simp only [wrap,Int.bmod_mul_bmod,Int.mul_bmod_bmod]
    ring_nf
  refine b.preserved frame ?_
  rw [value]
  exact evalN

end Rule10

theorem rule11Preserved (i : Inner others g roots node f s e c v) (op : opCode g node = .imul) (inner : opCode g f = .iadd)
    (once : g.referenceCount f = 1) : Preserved (meaning others) g roots node (rule11 g node) node := by
  have b := i.outer
  have other := b.first.other
  have before := b.before
  have insideF := b.first.inside
  have fresh : node ≠ g.size ∧ f ≠ g.size := by omega
  obtain ⟨readF,readS⟩ := b.reads
  have readC : getSecondChild (create (recreate g node .iadd) .imul) f = c := by simp [getSecondChild,i.two,fresh]
  have frame : Frame (meaning others) g (rule11 g node) node [f] := by
    refine ⟨fun k inside otherK fixed => ?_,fun k on => List.mem_singleton.mp on ▸ ⟨by simp [b.two],once⟩⟩
    have notF : k ≠ f := fun same => fixed (by simp [same])
    have notNew : k ≠ g.size := by omega
    simp [rule11,readF,otherK,notF,notNew]
  obtain ⟨u,w,z,evalE,evalC,evalS,same⟩ := Inner.values i
  rw [intSum inner,intProduct op] at same
  have keptE := b.kept frame i.first (by simp [i.notFirst (d := e) (by simp [i.two])]) evalE
  have keptC := b.kept frame i.second (by simp [i.notFirst (d := c) (by simp [i.two])]) evalC
  have keptS := b.kept frame b.second (by simp [b.distinct once]) evalS
  have products : OverProducts (rule11 g node) node f g.size e s c s := by
    refine ⟨?_,?_,?_,?_,?_⟩
    · simp [rule11,readF,b.two,NodeGraph.setAt,fresh,Ne.symm other]
    · simp [rule11,readF,readS,i.two,NodeGraph.setAt,fresh,other]
    · simp [rule11,readF,readS,readC,NodeGraph.setAt,Ne.symm fresh.1,Ne.symm fresh.2]
    · simp [rule11,readF,opCode]
    · simp [rule11,readF,opCode,Ne.symm fresh.2]
  have sum := products.sum (by simp [rule11,readF,opCode,fresh,Ne.symm other]) keptE keptS keptC keptS
  have value : v = wrap 32 (wrap 32 (u * z) + wrap 32 (w * z)) := by
    rw [same]
    simp only [wrap,Int.bmod_mul_bmod,Int.bmod_add_bmod,Int.add_bmod_bmod]
    ring_nf
  refine b.preserved frame ?_
  rw [value]
  exact sum

-- Two new products, not yet the operands of the node.
structure TwoProducts (g h : Trees) (node e s c s' : Nat) : Prop where
  old : ∀ k < g.size, k ≠ node → h.payload k = g.payload k ∧ h.children k = g.children k
  node : h.children node = g.children node
  first : h.children g.size = [e,s]
  second : h.children (g.size + 1) = [c,s']
  firstOp : opCode h g.size = .imul
  secondOp : opCode h (g.size + 1) = .imul

theorem productsMade (before : node < g.size) (op : OpCode) (e c s : Nat) :
    ∃ h, productOf (productOf (recreate g node op) e s).1 c s = (h,g.size + 1) ∧ TwoProducts g h node e s c s ∧ h.size = g.size + 2 ∧ opCode h node = op := by
  have fresh : node ≠ g.size ∧ node ≠ g.size + 1 := by omega
  refine ⟨_,rfl,⟨fun k inside other => ?_,?_,?_,?_,?_,?_⟩,rfl,?_⟩
  · have notNew : k ≠ g.size ∧ k ≠ g.size + 1 := by omega
    simp [productOf,createWith,other,notNew]
  · simp [productOf,createWith,fresh]
  · simp [productOf,createWith,NodeGraph.setAt]
  · simp [productOf,createWith,NodeGraph.setAt]
  · simp [productOf,createWith,opCode]
  · simp [productOf,createWith,opCode]
  · simp [productOf,createWith,opCode,fresh]

theorem attached {h : Trees} {c s' : Nat} (b : Binary others g roots node f s v) (made : TwoProducts g h node e s c s') :
    ∃ g', attachProducts h node g.size (g.size + 1) f s = g' ∧ Frame (meaning others) g g' node [] ∧ OverProducts g' node g.size (g.size + 1) e s c s' ∧
      (∀ k, g'.payload k = h.payload k) ∧ ∀ k, k ≠ node → g'.children k = h.children k := by
  have before := b.before
  have fresh : g.size ≠ node ∧ g.size + 1 ≠ node := by omega
  have payload : ∀ k, (attachProducts h node g.size (g.size + 1) f s).payload k = h.payload k := fun k => by simp [attachProducts]
  have children : ∀ k, k ≠ node → (attachProducts h node g.size (g.size + 1) f s).children k = h.children k := fun k other => by
    simp [attachProducts,other]
  refine ⟨_,rfl,⟨fun k inside other _ => ?_,nofun⟩,⟨?_,?_,?_,?_,?_⟩,payload,children⟩
  · rw [payload,children k other,(made.old k inside other).1,(made.old k inside other).2]
    exact ⟨fun _ => rfl,rfl⟩
  · simp [attachProducts,made.node,b.two,NodeGraph.setAt]
  · rw [children _ fresh.1]
    exact made.first
  · rw [children _ fresh.2]
    exact made.second
  · rw [opCode,payload]
    exact made.firstOp
  · rw [opCode,payload]
    exact made.secondOp

theorem rule13Preserved (i : Inner others g roots node f s e c v) (op : opCode g node = .imul) (inner : opCode g f = .iadd) :
    Preserved (meaning others) g roots node (rule13 g node) node := by
  have b := i.outer
  obtain ⟨readF,readS⟩ := b.reads
  have readE : getFirstChild g f = e := by simp [getFirstChild,i.two]
  have readC : getSecondChild (productOf (recreate g node .iadd) e s).1 f = c := by
    have notNew : f ≠ g.size := Nat.ne_of_lt b.first.inside
    simp [productOf,createWith,getSecondChild,i.two,notNew]
  obtain ⟨h,built,made,_,sum⟩ := productsMade b.before .iadd e c s
  obtain ⟨g',attached',frame,products,payload,_⟩ := attached b made
  have same : rule13 g node = g' := by
    simp only [rule13,readF,readS,readE,readC,built]
    exact attached'
  rw [same]
  obtain ⟨u,w,z,evalE,evalC,evalS,value⟩ := Inner.values i
  rw [intSum inner,intProduct op] at value
  have keptS := b.kept frame b.second (by simp) evalS
  have total := products.sum (by rw [opCode,payload]; exact sum) (b.kept frame i.first (by simp) evalE) keptS (b.kept frame i.second (by simp) evalC) keptS
  have value' : v = wrap 32 (wrap 32 (u * z) + wrap 32 (w * z)) := by
    rw [value]
    simp only [wrap,Int.bmod_mul_bmod,Int.bmod_add_bmod,Int.add_bmod_bmod]
    ring_nf
  refine b.preserved frame ?_
  rw [value']
  exact total

-- A factor of the second product gives way to a new constant.
theorem factorNegated {h : Trees} {c s' c' s'' : Nat} (before : node < g.size) (made : TwoProducts g h node e s c s') (size : h.size = g.size + 2)
    (j factor : Nat) (replaced : NodeGraph.setAt [c,s'] j (g.size + 2) = [c',s'']) :
    TwoProducts g (negateFactor h node (g.size + 1) j factor) node e s c' s'' ∧ opCode (negateFactor h node (g.size + 1) j factor) node = .iadd ∧
      opCode (negateFactor h node (g.size + 1) j factor) (g.size + 2) = .iconst ∧ (negateFactor h node (g.size + 1) j factor).children (g.size + 2) = [] ∧
      ((negateFactor h node (g.size + 1) j factor).payload (g.size + 2)).constValue = wrap 32 (-getInt h factor) := by
  have fresh : g.size ≠ node ∧ g.size + 1 ≠ node ∧ node ≠ g.size + 2 := by omega
  have old : ∀ k < g.size, k ≠ g.size + 1 ∧ k ≠ g.size + 2 := fun k inside => by omega
  have firstOp := made.firstOp
  have secondOp := made.secondOp
  unfold opCode at firstOp secondOp
  refine ⟨⟨fun k inside other => ?_,?_,?_,?_,?_,?_⟩,?_,?_,?_,?_⟩
  · rw [← (made.old k inside other).1,← (made.old k inside other).2]
    simp [negateFactor,size,other,old k inside]
  · simp [negateFactor,size,fresh,Ne.symm fresh.2.1,made.node]
  · simp [negateFactor,size,made.first]
  · simp [negateFactor,size,made.second,replaced]
  · simp [negateFactor,size,opCode,fresh,firstOp]
  · simp [negateFactor,size,opCode,fresh,secondOp]
  · simp [negateFactor,size,opCode,fresh]
  · simp [negateFactor,size,opCode]
  · simp [negateFactor,size]
  · simp [negateFactor,size]

theorem intConstMade {n : Nat} (isConst : opCode g n = .iconst) (leaf : g.children n = []) :
    Evaluates (meaning others) g n (wrap 32 (g.payload n).constValue) := by
  have made : Evaluates (meaning others) g n (meaning others (g.payload n) []) := Evaluates.leaf leaf
  unfold opCode at isConst
  rw [meaning,exactConst (by rw [isConst]; rfl),isConst] at made
  exact made

-- The value of a factor that is a constant.
theorem factorValue {h : Trees} {k : Nat} {w : Int} (formed : WellFormed g roots) (live : 0 < g.referenceCount k) (isConst : opCode g k = .iconst)
    (evaluates : Evaluates (meaning others) g k w) (same : h.payload k = g.payload k) : getInt h k = w := by
  have value := evaluates.unique (intConstValue formed live (by rw [isLoadConst,isConst]; rfl) (by rw [isConst]; rfl))
  rw [value,getInt,same]
  rfl

theorem rule15Preserved (i : Inner others g roots node f s e c v) (op : opCode g node = .imul) (inner : opCode g f = .isub) :
    Preserved (meaning others) g roots node (rule15 g node) node := by
  have b := i.outer
  have before := b.before
  obtain ⟨readF,readS⟩ := b.reads
  have readE : getFirstChild g f = e := by simp [getFirstChild,i.two]
  have readC : getSecondChild g f = c := by simp [getSecondChild,i.two]
  obtain ⟨u,w,z,evalE,evalC,evalS,value⟩ := Inner.values i
  rw [intDifference inner,intProduct op] at value
  obtain ⟨h,built,made,size,difference⟩ := productsMade before .isub e c s
  have payloadC := (made.old c i.second.inside i.second.other).1
  have payloadS := (made.old s b.second.inside b.second.other).1
  have opC : opCode h c = opCode g c := by rw [opCode,payloadC,opCode]
  have opS : opCode h s = opCode g s := by rw [opCode,payloadS,opCode]
  unfold rule15
  simp only [readF,readS,readE,readC,built,opC,opS]
  split
  · rename_i constC
    have negative := factorValue b.formed i.second.live constC evalC payloadC
    obtain ⟨made',sum,isConst,leaf,const⟩ := factorNegated before made size 0 c rfl
    generalize negateFactor h node (g.size + 1) 0 c = h' at *
    obtain ⟨g',attached',frame,products,payload,children⟩ := attached b made'
    have evalConst : Evaluates (meaning others) g' (g.size + 2) (wrap 32 (wrap 32 (-w))) := by
      rw [← negative,← const,← payload]
      exact intConstMade (by rw [opCode,payload]; exact isConst) (by rw [children _ (by omega)]; exact leaf)
    have keptS := b.kept frame b.second (by simp) evalS
    have total := products.sum (by rw [opCode,payload]; exact sum) (b.kept frame i.first (by simp) evalE) keptS evalConst keptS
    have value' : v = wrap 32 (wrap 32 (u * z) + wrap 32 (wrap 32 (wrap 32 (-w)) * z)) := by
      rw [value]
      simp only [wrap,Int.bmod_mul_bmod,Int.bmod_add_bmod,Int.add_bmod_bmod,Int.bmod_bmod]
      ring_nf
    change Preserved _ _ _ _ (attachProducts h' node g.size (g.size + 1) f s) _
    rw [attached']
    refine b.preserved frame ?_
    rw [value']
    exact total
  · split
    · rename_i constS
      have negative := factorValue b.formed b.second.live constS evalS payloadS
      obtain ⟨made',sum,isConst,leaf,const⟩ := factorNegated before made size 1 s rfl
      generalize negateFactor h node (g.size + 1) 1 s = h' at *
      obtain ⟨g',attached',frame,products,payload,children⟩ := attached b made'
      have evalConst : Evaluates (meaning others) g' (g.size + 2) (wrap 32 (wrap 32 (-z))) := by
        rw [← negative,← const,← payload]
        exact intConstMade (by rw [opCode,payload]; exact isConst) (by rw [children _ (by omega)]; exact leaf)
      have total := products.sum (by rw [opCode,payload]; exact sum) (b.kept frame i.first (by simp) evalE) (b.kept frame b.second (by simp) evalS)
        (b.kept frame i.second (by simp) evalC) evalConst
      have value' : v = wrap 32 (wrap 32 (u * z) + wrap 32 (w * wrap 32 (wrap 32 (-z)))) := by
        rw [value]
        simp only [wrap,Int.bmod_mul_bmod,Int.mul_bmod_bmod,Int.bmod_add_bmod,Int.add_bmod_bmod,Int.bmod_bmod]
        ring_nf
      change Preserved _ _ _ _ (attachProducts h' node g.size (g.size + 1) f s) _
      rw [attached']
      refine b.preserved frame ?_
      rw [value']
      exact total
    · obtain ⟨g',attached',frame,products,payload,_⟩ := attached b made
      have keptS := b.kept frame b.second (by simp) evalS
      have total := products.difference (by rw [opCode,payload]; exact difference) (b.kept frame i.first (by simp) evalE) keptS
        (b.kept frame i.second (by simp) evalC) keptS
      have value' : v = wrap 32 (wrap 32 (u * z) - wrap 32 (w * z)) := by
        rw [value]
        simp only [wrap,Int.bmod_mul_bmod,Int.bmod_sub_bmod,Int.sub_bmod_bmod]
        ring_nf
      change Preserved _ _ _ _ (attachProducts h node g.size (g.size + 1) f s) _
      rw [attached']
      refine b.preserved frame ?_
      rw [value']
      exact total

theorem distributePreserved (b : Binary others g roots node f s v) : Preserved (meaning others) g roots node (distributeRules env region g node) node := by
  have same : Preserved (meaning others) g roots node g node := Preserved.refl _ _ _ _
  have innerOf : ∀ {op : OpCode}, op.operands = some [.Int32,.Int32] → opCode g f = op → ∃ e c, Inner others g roots node f s e c v := by
    intro op operands isOp
    obtain ⟨e,c,two,_,_⟩ := binaryChildren b.formed b.first.live (by rw [isOp]; exact operands)
    exact ⟨e,c,b,two⟩
  obtain ⟨readF,readS⟩ := b.reads
  unfold distributeRules
  simp only [readF,readS]
  split
  · rename_i fits
    obtain ⟨op,_,sum,_,_,once⟩ := fits
    obtain ⟨e,c,i⟩ := innerOf rfl sum
    split
    · exact rule11Preserved i op sum once
    · exact same
  · split
    · rename_i fits
      obtain ⟨op,_,sum⟩ := fits
      obtain ⟨e,c,i⟩ := innerOf rfl sum
      split
      · exact rule13Preserved i op sum
      · exact same
    · split
      · rename_i fits
        obtain ⟨op,_,_,difference⟩ := fits
        obtain ⟨e,c,i⟩ := innerOf rfl difference
        split
        · exact rule15Preserved i op difference
        · exact same
      · exact same

theorem reassociatePreserved (b : Binary others g roots node f s v) (op : opCode g node = .imul) :
    Preserved (meaning others) g roots node (reassociate env g node) node := by
  have same : Preserved (meaning others) g roots node g node := Preserved.refl _ _ _ _
  unfold reassociate
  split
  · split
    · rename_i region _
      obtain ⟨readF,readS⟩ := b.reads
      unfold rule10
      simp only [readF,readS]
      split
      · rename_i fits
        obtain ⟨_,_,inner,_,_,once,_⟩ := fits
        obtain ⟨e,c,two,_,_⟩ := binaryChildren b.formed b.first.live (by rw [inner]; rfl)
        have i : Inner others g roots node f s e c v := ⟨b,two⟩
        have readE : getFirstChild g f = e := by simp [getFirstChild,two]
        have first := rule10Preserved i op inner once
        have live : 0 < (reassociated10 g node f s e).referenceCount node := by rw [rule10Count]; exact b.live
        have next : Binary others (reassociated10 g node f s e) roots node e f v :=
          ⟨rule10Formed i op inner,live,by rw [rule10Children i,if_pos rfl],first.value v b.evaluates⟩
        rw [readE]
        exact (rule10Frame i once).andThen b.formed.counted b.live first (distributePreserved next)
      · exact distributePreserved b
    · exact same
  · exact same

end Rules

end OmrCompiler.IntReassociation
