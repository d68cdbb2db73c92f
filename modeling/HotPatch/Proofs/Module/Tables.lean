import HotPatch.Module.Edit
import Mathlib.Tactic

/-!
# Tables that grow at their end

A token names the same row in every longer table. Sharing a row finds the first
equal row, and finds the same one again once the table has grown.
-/

namespace HotPatch

namespace Token

theorem eq_ofRow {token : Token} {table : Table} (h : token.isIn table) :
    token = .ofRow table token.row := by
  obtain ⟨value⟩ := token
  have hcode : value.toNat / rowLimit = table.code := by simpa [isIn, tableCode] using h
  have hvalue : value.toNat < 2 ^ 32 := value.toNat_lt
  simp only [ofRow, ofCode, row, Token.mk.injEq]
  rw [← UInt32.toNat_inj, UInt32.toNat_ofNat']
  simp only [rowLimit] at hcode ⊢
  omega

theorem isIn_ofRow (table : Table) (number : Nat) : (ofRow table number).isIn table := by
  rw [isIn, ofRow, tableCode_ofCode (by cases table <;> decide), beq_self_eq_true]

theorem table_of_isIn {token : Token} {table : Table} (h : token.isIn table) :
    token.table? = some table := by
  rw [eq_ofRow h, table?_ofRow]

theorem row_ofRow {table : Table} {number : Nat} (h : number < rowLimit) : (ofRow table number).row = number := by
  rw [ofRow, row_ofCode, Nat.mod_eq_of_lt h]

/-- A token belongs to one table. -/
theorem table_unique {token : Token} {a b : Table} (ha : token.isIn a) (hb : token.isIn b) : a = b := by
  have h := table_of_isIn ha
  rw [table_of_isIn hb, Option.some.injEq] at h
  exact h.symm

end Token

section Rows

variable {α : Type} {table : Table} {rows more : Array α} {token : Token} {row : α}

theorem getElem?_mono {index : Nat} (h : rows.toList <+: more.toList) (hr : rows[index]? = some row) :
    more[index]? = some row := by
  obtain ⟨rest, hrest⟩ := h
  rw [← Array.getElem?_toList] at hr ⊢
  rw [← hrest, List.getElem?_append_left (List.getElem?_eq_some_iff.mp hr).1, hr]

theorem toList_prefix_push (rows : Array α) (row : α) : rows.toList <+: (rows.push row).toList := by
  simp

theorem rowAt?_eq_some (h : rowAt? table rows token = some row) :
    token.isIn table ∧ token.row ≠ 0 ∧ rows[token.row - 1]? = some row := by
  unfold rowAt? at h
  split_ifs at h with hc
  exact ⟨hc.1, hc.2, h⟩

theorem mem_of_rowAt? (h : rowAt? table rows token = some row) : row ∈ rows :=
  Array.mem_of_getElem? (rowAt?_eq_some h).2.2

theorem rowAt?_mono (h : rows.toList <+: more.toList) (hr : rowAt? table rows token = some row) :
    rowAt? table more token = some row := by
  obtain ⟨hin, hz, hrow⟩ := rowAt?_eq_some hr
  rw [rowAt?, if_pos ⟨hin, hz⟩]
  exact getElem?_mono h hrow

theorem rowAt?_ofRow {number : Nat} (h : number < Token.rowLimit) (hz : number ≠ 0) :
    rowAt? table rows (.ofRow table number) = rows[number - 1]? := by
  rw [rowAt?, Token.row_ofRow h, if_pos ⟨Token.isIn_ofRow table number, hz⟩]

theorem rowAt?_of_not_isIn (h : ¬token.isIn table) : rowAt? table rows token = none := by
  rw [rowAt?, if_neg fun hc => h hc.1]

/-- What names a row of one table names none of another. -/
theorem rowAt?_of_other {β : Type} {other : Table} {others : Array β} (h : rowAt? table rows token = some row)
    (hne : table ≠ other) : rowAt? other others token = none :=
  rowAt?_of_not_isIn fun hin => hne (Token.table_unique (rowAt?_eq_some h).1 hin)

/-- Only the row that the token names matters. -/
theorem rowAt?_set! (index : Nat) (hr : rowAt? table rows token = some row) (new : α) :
    rowAt? table (rows.set! index new) token = some (if token.row - 1 = index then new else row) := by
  obtain ⟨hin, hz, hrow⟩ := rowAt?_eq_some hr
  obtain ⟨hlt, -⟩ := Array.getElem?_eq_some_iff.mp hrow
  rw [rowAt?, if_pos ⟨hin, hz⟩, Array.set!_eq_setIfInBounds, Array.getElem?_setIfInBounds]
  by_cases hi : index = token.row - 1
  · subst hi
    rw [if_pos rfl, if_pos hlt, if_pos rfl]
  · rw [if_neg hi, if_neg (Ne.symm hi), hrow]

/-- Replacing the row of a token changes what that token names, and nothing else. -/
theorem rowAt?_modify {changed : Token} (hc : rowAt? table rows changed = some row) (change : α → α) :
    rowAt? table (rows.set! (changed.row - 1) (change row)) token =
      (rowAt? table rows token).map fun old => if changed = token then change old else old := by
  obtain ⟨hin, hz, hrow⟩ := rowAt?_eq_some hc
  rcases hr : rowAt? table rows token with - | old
  · rw [Option.map_none]
    unfold rowAt? at hr ⊢
    by_cases h : token.isIn table ∧ token.row ≠ 0
    · rw [if_pos h, Array.getElem?_eq_none_iff] at hr
      rw [if_pos h, Array.getElem?_eq_none_iff]
      simpa [Array.set!_eq_setIfInBounds] using hr
    · rw [if_neg h]
  · obtain ⟨hin', hz', hrow'⟩ := rowAt?_eq_some hr
    rw [rowAt?_set! _ hr, Option.map_some, Option.some.injEq]
    by_cases he : changed = token
    · subst he
      rw [if_pos rfl, if_pos rfl]
      rw [hrow, Option.some.injEq] at hrow'
      rw [hrow']
    · rw [if_neg he, if_neg]
      intro hn
      apply he
      rw [Token.eq_ofRow hin, Token.eq_ofRow hin', show changed.row = token.row by omega]

theorem rowAt?_push (h : rows.size + 1 < Token.rowLimit) :
    rowAt? table (rows.push row) (.ofRow table (rows.size + 1)) = some row := by
  rw [rowAt?_ofRow h (by omega)]
  simp

theorem rowAt?_push_cases {last : α} (h : rowAt? table (rows.push last) token = some row) :
    rowAt? table rows token = some row ∨ row = last ∧ token = .ofRow table (rows.size + 1) := by
  obtain ⟨hin, hz, hrow⟩ := rowAt?_eq_some h
  rw [Array.getElem?_push] at hrow
  split_ifs at hrow with hs
  · rw [Option.some.injEq] at hrow
    refine .inr ⟨hrow.symm, ?_⟩
    rw [Token.eq_ofRow hin, show token.row = rows.size + 1 by omega]
  · exact .inl (by rw [rowAt?, if_pos ⟨hin, hz⟩, hrow])

theorem rowAt?_isSome {number : Nat} (h : number < rows.size) (hl : rows.size < Token.rowLimit) :
    rowAt? table rows (.ofRow table (number + 1)) = some rows[number] := by
  rw [rowAt?_ofRow (by omega) (by omega), Nat.add_sub_cancel, Array.getElem?_eq_getElem h]

end Rows

section Sharing

variable {α : Type} [DecidableEq α] {rows more : Array α} {row : α} {number : Nat} {shared : Array α}

/-- What sharing a row answers. -/
structure Shared (rows : Array α) (row : α) (number : Nat) (shared : Array α) : Prop where
  grows : rows.toList <+: shared.toList
  positive : number ≠ 0
  found : shared[number - 1]? = some row
  again : ∀ more : Array α, shared.toList <+: more.toList → shareRow more row = (number, more)

theorem shareRow_of_first {index : Nat} (h : rows[index]? = some row)
    (hfirst : ∀ i, i < index → rows[i]? ≠ some row) (hm : rows.toList <+: more.toList) :
    shareRow more row = (index + 1, more) := by
  obtain ⟨hlt, hrow⟩ := Array.getElem?_eq_some_iff.mp (getElem?_mono hm h)
  have hfind : more.findIdx? (· == row) = some index := by
    rw [Array.findIdx?_eq_some_iff_getElem]
    refine ⟨hlt, by simp [hrow], fun i hi => ?_⟩
    have hsize : i < rows.size := by
      obtain ⟨hs, -⟩ := Array.getElem?_eq_some_iff.mp h
      omega
    have hne : rows[i] ≠ row := by
      intro he
      exact hfirst i hi (by rw [Array.getElem?_eq_getElem hsize, he])
    have hsame : more[i]? = some rows[i] := getElem?_mono hm (Array.getElem?_eq_getElem hsize)
    obtain ⟨_, he⟩ := Array.getElem?_eq_some_iff.mp hsame
    simpa [he] using hne
  rw [shareRow, hfind]

theorem shareRow_spec (rows : Array α) (row : α) :
    Shared rows row (shareRow rows row).1 (shareRow rows row).2 := by
  rcases hf : rows.findIdx? (· == row) with - | index
  · have hnone : ∀ i : Nat, rows[i]? ≠ some row := by
      intro i hi
      rw [Array.findIdx?_eq_none_iff] at hf
      have hm : row ∈ rows := Array.mem_of_getElem? hi
      simpa using hf row hm
    have hs : shareRow rows row = (rows.size + 1, rows.push row) := by rw [shareRow, hf]
    rw [hs]
    have hat : (rows.push row)[rows.size]? = some row := by simp
    refine ⟨toList_prefix_push rows row, by simp, by simp, fun more hm => ?_⟩
    refine shareRow_of_first hat (fun i hi => ?_) hm
    rw [Array.getElem?_push, if_neg (by omega)]
    exact hnone i
  · obtain ⟨hlt, hrow, hfirst⟩ := Array.findIdx?_eq_some_iff_getElem.mp hf
    have hs : shareRow rows row = (index + 1, rows) := by rw [shareRow, hf]
    have hat : rows[index]? = some row := by
      rw [Array.getElem?_eq_getElem hlt]
      simpa using hrow
    rw [hs]
    refine ⟨List.prefix_refl _, by simp, by simpa using hat, fun more hm => ?_⟩
    refine shareRow_of_first hat (fun i hi he => ?_) hm
    obtain ⟨_, he⟩ := Array.getElem?_eq_some_iff.mp he
    simpa [he] using hfirst i hi

/-- The token of a shared row leads to that row. -/
theorem rowAt?_shareRow {table : Table} (h : (shareRow rows row).2.size < Token.rowLimit) :
    rowAt? table (shareRow rows row).2 (.ofRow table (shareRow rows row).1) = some row := by
  have hspec := shareRow_spec rows row
  have hpositive := hspec.positive
  obtain ⟨hlt, -⟩ := Array.getElem?_eq_some_iff.mp hspec.found
  rw [rowAt?_ofRow (by omega) hpositive, hspec.found]

end Sharing
end HotPatch
