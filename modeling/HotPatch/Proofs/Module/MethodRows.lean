import HotPatch.Proofs.Module.Tables

/-!
# Method rows under their tokens

The writer goes through the method table with the token of each row. A row is
found again under its token unless the table has outgrown the row numbers.
-/

namespace HotPatch.Module

variable {module : Module} {row : Token × MethodDef}

/-- The rows of the method table, each with its token. -/
abbrev methodRows (module : Module) : List (Token × MethodDef) := module.methodTokens.zip module.methods.toList

/-- Each method row is found under its token. -/
def OwnsTokens (module : Module) : Prop := ∀ row ∈ module.methodRows, module.method? row.1 = some row.2

theorem length_methodTokens (module : Module) : module.methodTokens.length = module.methods.size := by
  simp [methodTokens, tokens, tableTokens, rowCount]

theorem map_fst_methodRows (module : Module) : module.methodRows.map Prod.fst = module.methodTokens :=
  List.map_fst_zip (by rw [length_methodTokens, Array.length_toList])

theorem map_snd_methodRows (module : Module) : module.methodRows.map Prod.snd = module.methods.toList :=
  List.map_snd_zip (by rw [length_methodTokens, Array.length_toList])

theorem mem_methods_iff {method : MethodDef} :
    method ∈ module.methods ↔ ∃ row ∈ module.methodRows, row.2 = method := by
  rw [← Array.mem_toList_iff, ← map_snd_methodRows, List.mem_map]

theorem getElem?_methodRows {index : Nat} : module.methodRows[index]? = some row ↔
    row.1 = .ofRow .methodDef (index + 1) ∧ module.methods[index]? = some row.2 := by
  rw [List.getElem?_zip_eq_some, ← Array.getElem?_toList (i := index)]
  refine and_congr_left fun hr => ?_
  have hi := (List.getElem?_eq_some_iff.mp hr).1
  rw [Array.length_toList] at hi
  simp [methodTokens, tokens, tableTokens, rowCount, hi, eq_comm]

theorem mem_methodRows : row ∈ module.methodRows ↔
    ∃ index, row.1 = .ofRow .methodDef (index + 1) ∧ module.methods[index]? = some row.2 := by
  simp only [List.mem_iff_getElem?, getElem?_methodRows]

/-- Row numbers are 24 bits wide. -/
theorem ownsTokens_iff : module.OwnsTokens ↔ module.methods.size < Token.rowLimit := by
  constructor
  · intro h
    by_contra hlimit
    -- The row behind the last number would get number zero, which names nothing.
    have hlast : Token.rowLimit - 1 < module.methods.size := by
      have hpos : 0 < Token.rowLimit := by decide
      omega
    have hfound := h (.ofRow .methodDef (Token.rowLimit - 1 + 1), module.methods[Token.rowLimit - 1])
      (mem_methodRows.mpr ⟨_, rfl, Array.getElem?_eq_getElem hlast⟩)
    obtain ⟨-, hz, -⟩ := rowAt?_eq_some hfound
    exact hz (Token.row_ofCode _ _)
  · intro h row hr
    obtain ⟨index, ht, hm⟩ := mem_methodRows.mp hr
    obtain ⟨hi, hm⟩ := Array.getElem?_eq_some_iff.mp hm
    rw [ht, ← hm]
    exact rowAt?_isSome hi h

theorem methodTokens_increasing (h : module.OwnsTokens) :
    module.methodTokens.Pairwise fun first second => first.row < second.row := by
  have hlimit := ownsTokens_iff.mp h
  rw [methodTokens, tokens, tableTokens, List.pairwise_map]
  refine List.Pairwise.imp_of_mem (fun {a b} ha hb hlt => ?_) List.pairwise_lt_range
  simp only [List.mem_range, rowCount] at ha hb
  rw [Token.row_ofRow (by omega), Token.row_ofRow (by omega)]
  omega

/-- The rows are what look-ups find. -/
theorem methodRows_eq (h : module.OwnsTokens) :
    module.methodRows = module.methodTokens.filterMap fun token => (module.method? token).map (token, ·) := by
  have hfound : ∀ row ∈ module.methodRows, (module.method? row.1).map (row.1, ·) = some row := by
    intro row hr
    rw [h row hr, Option.map_some]
  rw [← map_fst_methodRows, List.filterMap_map]
  calc
    module.methodRows = module.methodRows.filterMap some := List.filterMap_some.symm
    _ = _ := List.filterMap_congr fun row hr => (hfound row hr).symm

end HotPatch.Module
