import OmrCompiler.OsrMetaData

/-! The table of shared slots: entries stay in the order of their instructions, and
compression leaves under each recorded instruction what was recorded for it. -/
namespace OmrCompiler.OsrMetaData

section Table
variable {table : List Entry} {calls : Calls} {pc : Word} {infos : List ScratchBufferInfo}

def Ascending (table : List Entry) : Prop := table.Pairwise fun a b => a.pc < b.pc

-- What an addition puts in the table.
theorem memAdd (ascending : Ascending table) {e : Entry} :
    e ∈ addInstruction2SharedSlotMapEntry pc infos table ↔
      (e ∈ table ∧ e.instructionPC ≠ pc) ∨
        (∃ f ∈ table, f.instructionPC = pc ∧ e = ⟨pc,f.scratchBufferInfos ++ infos⟩) ∨
          ((∀ f ∈ table, f.instructionPC ≠ pc) ∧ e = ⟨pc,infos⟩) := by
  induction table with
  | nil => simp [addInstruction2SharedSlotMapEntry]
  | cons cur rest ih =>
      obtain ⟨first,later⟩ := List.pairwise_cons.mp ascending
      have larger : ∀ {f}, f ∈ rest → pc.toInt ≤ cur.pc → f.instructionPC ≠ pc := fun {f} on below same => by
        have above := first f on
        have here : f.pc = pc.toInt := congrArg BitVec.toInt same
        omega
      unfold addInstruction2SharedSlotMapEntry
      by_cases below : pc.toInt ≤ cur.pc
      · rw [if_pos below]
        by_cases here : pc = cur.instructionPC
        · rw [if_pos here]
          subst here
          have others : ∀ {e}, e ∈ rest → e.instructionPC ≠ cur.instructionPC := fun on => larger on below
          simp only [List.mem_cons]
          constructor
          · rintro (rfl | on)
            · exact .inr (.inl ⟨cur,.inl rfl,rfl,rfl⟩)
            · exact .inl ⟨.inr on,others on⟩
          · rintro (⟨rfl | on,away⟩ | ⟨f,rfl | on,same,rfl⟩ | ⟨none',_⟩)
            · exact absurd rfl away
            · exact .inr on
            · exact .inl rfl
            · exact absurd same (others on)
            · exact absurd rfl (none' cur (.inl rfl))
        · rw [if_neg here]
          have none' : ∀ f ∈ cur::rest, f.instructionPC ≠ pc := fun f on => by
            rcases List.mem_cons.mp on with rfl | on
            · exact Ne.symm here
            · exact larger on below
          rw [List.mem_cons]
          constructor
          · rintro (rfl | on)
            · exact .inr (.inr ⟨none',rfl⟩)
            · exact .inl ⟨on,none' e on⟩
          · rintro (⟨on,_⟩ | ⟨f,on,same,_⟩ | ⟨_,rfl⟩)
            · exact .inr on
            · exact absurd same (none' f on)
            · exact .inl rfl
      · rw [if_neg below]
        have away : cur.instructionPC ≠ pc := fun same => below (same ▸ Int.le_refl _)
        rw [List.mem_cons,ih later]
        simp only [List.mem_cons,forall_eq_or_imp,exists_eq_or_imp]
        constructor
        · rintro (rfl | ⟨on,other⟩ | ⟨f,on,same,rfl⟩ | ⟨none',rfl⟩)
          · exact .inl ⟨.inl rfl,away⟩
          · exact .inl ⟨.inr on,other⟩
          · exact .inr (.inl (.inr ⟨f,on,same,rfl⟩))
          · exact .inr (.inr ⟨⟨away,none'⟩,rfl⟩)
        · rintro (⟨rfl | on,other⟩ | (⟨same,_⟩ | ⟨f,on,same,rfl⟩) | ⟨⟨_,none'⟩,rfl⟩)
          · exact .inl rfl
          · exact .inr (.inl ⟨on,other⟩)
          · exact absurd same away
          · exact .inr (.inr (.inl ⟨f,on,same,rfl⟩))
          · exact .inr (.inr (.inr ⟨none',rfl⟩))

theorem Ascending.add (ascending : Ascending table) (pc : Word) (infos : List ScratchBufferInfo) :
    Ascending (addInstruction2SharedSlotMapEntry pc infos table) := by
  induction table with
  | nil => exact List.pairwise_singleton _ _
  | cons cur rest ih =>
      obtain ⟨first,later⟩ := List.pairwise_cons.mp ascending
      unfold addInstruction2SharedSlotMapEntry
      by_cases below : pc.toInt ≤ cur.pc
      · rw [if_pos below]
        by_cases here : pc = cur.instructionPC
        · rw [if_pos here]
          exact List.pairwise_cons.mpr ⟨first,later⟩
        · rw [if_neg here]
          have less : pc.toInt < cur.pc := by
            have other : pc.toInt ≠ cur.pc := fun same => here (BitVec.eq_of_toInt_eq same)
            omega
          refine List.pairwise_cons.mpr ⟨fun f on => ?_,ascending⟩
          rcases List.mem_cons.mp on with rfl | on
          · exact less
          · exact Int.lt_trans less (first f on)
      · rw [if_neg below]
        refine List.pairwise_cons.mpr ⟨fun e on => ?_,ih later⟩
        rcases (memAdd later).mp on with ⟨was,_⟩ | ⟨f,_,_,rfl⟩ | ⟨_,rfl⟩
        · exact first e was
        · exact Int.lt_of_not_ge below
        · exact Int.lt_of_not_ge below

-- The table of the calls so far.
structure Records (calls : Calls) (table : List Entry) : Prop where
  ascending : Ascending table
  infos : ∀ e ∈ table, e.scratchBufferInfos = recordedFor e.instructionPC calls
  present : ∀ call ∈ calls, ∃ e ∈ table, e.instructionPC = call.1

theorem recordedAppend (pc : Word) (call : Word × List ScratchBufferInfo) :
    recordedFor pc (calls ++ [call]) = recordedFor pc calls ++ if call.1 = pc then call.2 else [] := by
  unfold recordedFor
  by_cases here : call.1 = pc <;> simp [here]

theorem Records.add (h : Records calls table) (call : Word × List ScratchBufferInfo) :
    Records (calls ++ [call]) (addInstruction2SharedSlotMapEntry call.1 call.2 table) := by
  refine ⟨h.ascending.add call.1 call.2,fun e on => ?_,fun c on => ?_⟩
  · rcases (memAdd h.ascending).mp on with ⟨was,away⟩ | ⟨f,was,same,rfl⟩ | ⟨none',rfl⟩
    · rw [recordedAppend,if_neg (Ne.symm away),List.append_nil,h.infos e was]
    · rw [recordedAppend,if_pos rfl,h.infos f was,same]
    · have never : recordedFor call.1 calls = [] := by
        unfold recordedFor
        rw [List.filter_eq_nil_iff.mpr,List.flatMap_nil]
        intro c on' same
        obtain ⟨e,was,here⟩ := h.present c on'
        exact none' e was (here.trans (by simpa using same))
      rw [recordedAppend,if_pos rfl,never,List.nil_append]
  · rcases List.mem_append.mp on with early | last
    · obtain ⟨e,was,here⟩ := h.present c early
      by_cases same : e.instructionPC = call.1
      · exact ⟨⟨call.1,e.scratchBufferInfos ++ call.2⟩,(memAdd h.ascending).mpr (.inr (.inl ⟨e,was,same,rfl⟩)),same.symm.trans here⟩
      · exact ⟨e,(memAdd h.ascending).mpr (.inl ⟨was,same⟩),here⟩
    · rw [List.mem_singleton.mp last]
      by_cases known : ∃ f ∈ table, f.instructionPC = call.1
      · obtain ⟨f,was,same⟩ := known
        exact ⟨⟨call.1,f.scratchBufferInfos ++ call.2⟩,(memAdd h.ascending).mpr (.inr (.inl ⟨f,was,same,rfl⟩)),rfl⟩
      · exact ⟨⟨call.1,call.2⟩,(memAdd h.ascending).mpr (.inr (.inr ⟨fun f was same => known ⟨f,was,same⟩,rfl⟩)),rfl⟩

end Table

end OmrCompiler.OsrMetaData
