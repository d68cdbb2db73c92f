import HotPatch.Proofs.Body.AssembledDepth
import HotPatch.Proofs.Patch.TableRun

/-!
# The body of the lookup method

The assembler is never refused while it makes the body of the lookup method:
the dictionary stays on the stack, and each entry takes what it loads. So the
body can be written out, and it declares the stack that the analysis finds.
-/

namespace HotPatch.LookupTable

open Code (Assembler)

variable {constructor add : Token} {entries : List LookupEntry}

/-- The calls of the assembler that add one entry. -/
def entryCalls (add : Token) (entry : LookupEntry) : List Assembler.Call :=
  [.dup, .ldtoken entry.base, .ldtoken entry.wrapper, .callvirt add addSig]

/-- The calls in front of the return. -/
def tableCalls (constructor add : Token) (entries : List LookupEntry) : List Assembler.Call :=
  .newobj constructor SupportType.constructorSig :: entries.flatMap (entryCalls add)

/-- The greatest depth after the entries, where the one before them is given. -/
def tableDepth (depth : Nat) (entries : List LookupEntry) : Nat := if entries = [] then depth else max depth 4

/-- The body of the lookup method, written out. -/
def tableBody (constructor add : Token) (entries : List LookupEntry) : Body where
  instructions := tableCode constructor add entries
  maxStack := .ofNat (tableDepth 1 entries)

theorem map_instruction_entryCalls (add : Token) (entries : List LookupEntry) :
    (entries.flatMap (entryCalls add)).map (·.instruction) = entries.flatMap (entryCode add) := by
  rw [List.map_flatMap]
  rfl

theorem tableCode_eq (constructor add : Token) (entries : List LookupEntry) :
    tableCode constructor add entries =
      (tableCalls constructor add entries ++ Assembler.Call.ret :: []).map (·.instruction) := by
  rw [List.map_append, tableCalls, List.map_cons, map_instruction_entryCalls]
  rfl

theorem emitEntry_eq (asm : Assembler) (entry : LookupEntry) :
    emitEntry add asm entry = asm.runAll (entryCalls add entry) := by
  simp [emitEntry, Assembler.runAll, entryCalls, Assembler.Call.run]

/-- An entry is added above the dictionary, and nothing of it stays on the stack. -/
theorem runAll_entryCalls (add : Token) (code : Array Code.Instruction) (maxDepth : Nat) (entry : LookupEntry) :
    ∃ code', Assembler.runAll ⟨code, 1, maxDepth⟩ (entryCalls add entry) = .ok ⟨code', 1, max maxDepth 4⟩ := by
  have hdepth : max (max (max (max maxDepth 2) 3) 4) 1 = max maxDepth 4 := by omega
  rw [← hdepth]
  exact ⟨_, rfl⟩

theorem runAll_entries (add : Token) (code : Array Code.Instruction) (maxDepth : Nat) (entries : List LookupEntry) :
    ∃ code', Assembler.runAll ⟨code, 1, maxDepth⟩ (entries.flatMap (entryCalls add)) =
      .ok ⟨code', 1, tableDepth maxDepth entries⟩ := by
  induction entries generalizing code maxDepth with
  | nil => exact ⟨code, rfl⟩
  | cons entry entries ih =>
    obtain ⟨middle, hentry⟩ := runAll_entryCalls add code maxDepth entry
    obtain ⟨code', hrest⟩ := ih middle (max maxDepth 4)
    have hdepth : tableDepth (max maxDepth 4) entries = tableDepth maxDepth (entry :: entries) := by
      simp [tableDepth]
    rw [hdepth] at hrest
    exact ⟨code', Assembler.runAll_append.mpr ⟨_, hentry, hrest⟩⟩

theorem foldlM_emitEntry_eq (asm : Assembler) (entries : List LookupEntry) :
    entries.foldlM (emitEntry add) asm = asm.runAll (entries.flatMap (entryCalls add)) := by
  induction entries generalizing asm with
  | nil => rfl
  | cons entry entries ih =>
    rw [List.foldlM_cons, emitEntry_eq, List.flatMap_cons, Assembler.runAll, Assembler.runAll, List.foldlM_append]
    exact congrArg _ (funext ih)

theorem runAll_tableCalls (constructor add : Token) (entries : List LookupEntry) :
    ∃ code, Assembler.runAll {} (tableCalls constructor add entries) = .ok ⟨code, 1, tableDepth 1 entries⟩ := by
  obtain ⟨code, hrun⟩ := runAll_entries add #[.withToken .newobj constructor] 1 entries
  exact ⟨code, bind_eq_ok.mpr ⟨_, rfl, hrun⟩⟩

theorem body_eq (constructor add : Token) (entries : List LookupEntry) :
    LookupTable.body constructor add entries = .ok (tableBody constructor add entries) := by
  obtain ⟨code, hrun⟩ := runAll_tableCalls constructor add entries
  obtain ⟨created, hcreated, hfilled⟩ := bind_eq_ok.mp hrun
  have hfilled : entries.foldlM (emitEntry add) created = _ := (foldlM_emitEntry_eq created entries).trans hfilled
  have hret : Assembler.ret ⟨code, 1, tableDepth 1 entries⟩ =
      .ok ⟨code.push { opcode := .ret }, 0, tableDepth 1 entries⟩ := by
    simp [Assembler.ret, Assembler.emit]
  have hfinish : Assembler.finish ⟨code.push { opcode := .ret }, 0, tableDepth 1 entries⟩ =
      .ok (code.toList ++ [{ opcode := .ret }], tableDepth 1 entries) := by
    simp [Assembler.finish]
  have hbody : LookupTable.body constructor add entries = .ok _ :=
    bind_eq_ok.mpr ⟨created, hcreated, bind_eq_ok.mpr ⟨_, hfilled, bind_eq_ok.mpr ⟨_, hret,
      bind_eq_ok.mpr ⟨_, hfinish, rfl⟩⟩⟩⟩
  exact hbody.trans (congrArg Except.ok (body_ok hbody))

theorem tableCalls_agree {signature : Token → Result MethodSig}
    (hc : signature constructor = .ok SupportType.constructorSig) (ha : signature add = .ok addSig) :
    ∀ call ∈ tableCalls constructor add entries, call ≠ .ret ∧ call.Agrees signature := by
  intro call hcall
  rcases List.mem_cons.mp hcall with rfl | hcall
  · exact ⟨by simp, _, hc, rfl, rfl, rfl⟩
  · obtain ⟨entry, -, hcall⟩ := List.mem_flatMap.mp hcall
    simp only [entryCalls, List.mem_cons, List.not_mem_nil, or_false] at hcall
    rcases hcall with rfl | rfl | rfl | rfl
    · exact ⟨by simp, trivial⟩
    · exact ⟨by simp, trivial⟩
    · exact ⟨by simp, trivial⟩
    · exact ⟨by simp, _, ha, rfl, rfl, rfl⟩

/-- The body declares exactly the stack that it needs. -/
theorem requiredStack_tableBody {signature : Token → Result MethodSig}
    (hc : signature constructor = .ok SupportType.constructorSig) (ha : signature add = .ok addSig) :
    (tableBody constructor add entries).requiredStack signature true =
      .ok (tableBody constructor add entries).maxStack.toNat := by
  obtain ⟨code, hrun⟩ := runAll_tableCalls constructor add entries
  have hagree : ∀ call ∈ tableCalls constructor add entries, call ≠ .ret ∧ call.Agrees signature :=
    tableCalls_agree hc ha
  have hrequired : (tableBody constructor add entries).requiredStack signature true = _ :=
    Assembler.requiredStack_of_runAll hrun (fun hm => (hagree _ hm).1 rfl) (fun call hm => (hagree call hm).2) rfl
      (tableCode_eq constructor add entries) rfl
  have hsize : tableDepth 1 entries < 2 ^ 16 := by
    unfold tableDepth
    split_ifs <;> decide
  rw [hrequired, tableBody, UInt16.toNat_ofNat_of_lt' hsize]

end HotPatch.LookupTable
