import HotPatch.Proofs.Module.OwnedLists

/-!
# Consistent modules

Whatever is added to an empty module, and whether or not the additions succeed,
the module stays consistent: tokens and rows correspond, owners and members
list one another, shared rows are not repeated, nested types come behind the
types around them, attributes have their targets, and the signatures of methods
agree with their flags. An addition that fails leaves the module as it was.
-/

namespace HotPatch.Module

section Rows

/-- The rows of a table. -/
def rowsOf (module : Module) : Table → Array Row
  | .typeRef => module.typeRefs.map .typeRef
  | .typeDef => module.typeDefs.map .typeDef
  | .field => module.fields.map .field
  | .methodDef => module.methods.map .methodDef
  | .memberRef => module.memberRefs.map .memberRef
  | .customAttribute => module.attributes.map .customAttribute
  | .standAloneSig => module.locals.map .locals
  | .typeSpec => module.typeSpecs.map .typeSpec
  | .methodSpec => module.methodSpecs.map .methodSpec

variable {module : Module} {token : Token} {table : Table}

theorem size_rowsOf (module : Module) (table : Table) : (module.rowsOf table).size = module.rowCount table := by
  cases table <;> simp [rowsOf, rowCount]

theorem rowAt?_map {α β : Type} {rows : Array α} {change : α → β} :
    rowAt? table (rows.map change) token = (rowAt? table rows token).map change := by
  unfold rowAt?
  split_ifs
  · rw [Array.getElem?_map]
  · rfl

theorem row?_eq (h : token.isIn table) : module.row? token = rowAt? table (module.rowsOf table) token := by
  unfold row?
  rw [Token.table_of_isIn h]
  cases table <;> simp [rowsOf, rowAt?_map, typeRef?, typeDef?, field?, method?, memberRef?, attribute?,
    locals?, typeSpec?, methodSpec?, Option.map_eq_bind]

theorem isIn_of_row? {row : Row} (h : module.row? token = some row) : ∃ table, token.isIn table := by
  unfold row? at h
  obtain ⟨table, ht, -⟩ := Option.bind_eq_some_iff.mp h
  refine ⟨table, ?_⟩
  rw [Token.isIn, beq_iff_eq]
  exact (Table.code_of_ofCode? ht).symm

/-- Tokens name the rows of their tables, counted from one. -/
theorem row?_eq_some_iff (hfit : module.RowsFit) {row : Row} : module.row? token = some row ↔
    ∃ table index, token = .ofRow table (index + 1) ∧ (module.rowsOf table)[index]? = some row := by
  constructor
  · intro h
    obtain ⟨table, hin⟩ := isIn_of_row? h
    rw [row?_eq hin] at h
    obtain ⟨-, hz, hrow⟩ := rowAt?_eq_some h
    refine ⟨table, token.row - 1, ?_, hrow⟩
    rw [Nat.sub_add_cancel (Nat.pos_of_ne_zero hz)]
    exact Token.eq_ofRow hin
  · rintro ⟨table, index, rfl, hrow⟩
    have hsize := (Array.getElem?_eq_some_iff.mp hrow).1
    have hbound := hfit table
    rw [size_rowsOf] at hsize
    rw [row?_eq (Token.isIn_ofRow table _), rowAt?_ofRow (by omega) (by omega), Nat.add_sub_cancel, hrow]

theorem eq_ofCode (token : Token) : token = .ofCode token.tableCode token.row := by
  obtain ⟨value⟩ := token
  have hvalue : value.toNat < 2 ^ 32 := value.toNat_lt
  simp only [Token.ofCode, Token.row, Token.tableCode, Token.mk.injEq]
  rw [← UInt32.toNat_inj, UInt32.toNat_ofNat']
  simp only [Token.rowLimit]
  omega

theorem userString?_eq_some_iff (hfit : module.userStrings.size < Token.rowLimit) {value : String} :
    module.userString? token = some value ↔ ∃ index, token = .ofCode userStringCode (index + 1) ∧
      module.userStrings[index]? = some value := by
  unfold userString?
  constructor
  · intro h
    split_ifs at h with hc
    refine ⟨token.row - 1, ?_, h⟩
    rw [Nat.sub_add_cancel (Nat.pos_of_ne_zero hc.2), ← hc.1]
    exact eq_ofCode token
  · rintro ⟨index, rfl, hvalue⟩
    have hsize := (Array.getElem?_eq_some_iff.mp hvalue).1
    have hrow : (Token.ofCode userStringCode (index + 1)).row = index + 1 := by
      rw [Token.row_ofCode, Nat.mod_eq_of_lt (by omega)]
    rw [hrow, if_pos ⟨Token.tableCode_ofCode (by decide), by omega⟩, Nat.add_sub_cancel, hvalue]

theorem isSome_rowAt? {α : Type} {rows : Array α} (h : token.isIn table) :
    (rowAt? table rows token).isSome ↔ token.row ≠ 0 ∧ token.row ≤ rows.size := by
  unfold rowAt?
  by_cases hz : token.row = 0
  · simp [hz]
  · rw [if_pos ⟨h, hz⟩, isSome_getElem?]
    omega

/-- What a module contains can be looked up. -/
theorem contains_iff : module.contains token ↔
    (module.row? token).isSome ∨ (module.userString? token).isSome := by
  unfold Module.contains userString?
  rw [Bool.and_eq_true, bne_iff_ne]
  by_cases hcode : token.tableCode = userStringCode
  · -- No table has the code of user strings.
    have hrow : module.row? token = none := by
      unfold row? Token.table?
      rw [hcode]
      rfl
    rw [if_pos hcode, hrow, decide_eq_true_eq]
    by_cases hz : token.row = 0
    · simp [hz]
    · rw [if_pos ⟨hcode, hz⟩, isSome_getElem?]
      simp only [Option.isSome_none, Bool.false_eq_true, false_or]
      omega
  · rw [if_neg hcode, if_neg fun hc => hcode hc.1]
    rcases ht : token.table? with - | table
    · have hrow : module.row? token = none := by
        unfold row?
        rw [ht]
        rfl
      simp [hrow]
    · have hin : token.isIn table := by
        rw [Token.isIn, beq_iff_eq]
        exact (Table.code_of_ofCode? ht).symm
      rw [row?_eq hin, isSome_rowAt? hin, size_rowsOf]
      simp

end Rows

section Sharing

variable {α : Type} [DecidableEq α]

/-- A shared row is appended only if it is not there. -/
theorem nodup_shareRow {rows : Array α} (h : rows.toList.Nodup) (row : α) :
    (shareRow rows row).2.toList.Nodup := by
  unfold shareRow
  split
  · exact h
  · rename_i hnone
    have hnew : row ∉ rows.toList := by
      intro hm
      rw [Array.findIdx?_eq_none_iff] at hnone
      simpa using hnone row (Array.mem_toList_iff.mp hm)
    rw [Array.toList_push]
    exact List.nodup_append.mpr ⟨h, List.nodup_singleton row, fun a ha b hb => by
      rw [List.mem_singleton.mp hb]
      exact fun he => hnew (he ▸ ha)⟩

/-- No two shared rows are equal. -/
structure Distinct (module : Module) : Prop where
  typeRefs : module.typeRefs.toList.Nodup
  memberRefs : module.memberRefs.toList.Nodup
  typeSpecs : module.typeSpecs.toList.Nodup
  methodSpecs : module.methodSpecs.toList.Nodup
  userStrings : module.userStrings.toList.Nodup
  documents : module.documents.toList.Nodup

theorem Built.distinct {module : Module} (h : Built module) : Distinct module := by
  have hsame : ∀ {a b : Module}, b = { a with
      typeDefs := b.typeDefs, fields := b.fields, methods := b.methods, attributes := b.attributes,
      locals := b.locals } → Distinct a → Distinct b := by
    intro a b hb h
    rw [hb]
    exact ⟨h.typeRefs, h.memberRefs, h.typeSpecs, h.methodSpecs, h.userStrings, h.documents⟩
  induction h with
  | new name versionId => constructor <;> exact List.nodup_nil
  | addTypeRef _ row ih => exact { ih with typeRefs := nodup_shareRow ih.typeRefs row }
  | addMemberRef _ row ih => exact { ih with memberRefs := nodup_shareRow ih.memberRefs row }
  | addTypeSpec _ sig ih => exact { ih with typeSpecs := nodup_shareRow ih.typeSpecs ⟨sig⟩ }
  | addMethodSpec _ row ih => exact { ih with methodSpecs := nodup_shareRow ih.methodSpecs row }
  | addUserString _ value ih => exact { ih with userStrings := nodup_shareRow ih.userStrings value }
  | addDocument _ name ih => exact { ih with documents := nodup_shareRow ih.documents name }
  | addLocals _ types ih => exact hsame rfl ih
  | addType _ ha ih => exact hsame (by rw [(addType_spec ha).1]) ih
  | addField _ ha ih => exact hsame (by rw [(addField_spec ha).2.1]) ih
  | addMethod _ ha ih => exact hsame (by rw [(addMethod_spec ha).2.2.1]) ih
  | addAttribute _ ha ih => exact hsame (by rw [(addAttribute_spec ha).2.2]) ih
  | setBody _ hs ih => exact hsame (by rw [(modifyMethod?_spec hs).2.1]) ih

end Sharing

section Definitions

variable {before after module : Module} {token : Token}

/-- The type around a type comes before it in the table. -/
def NestedBehind (module : Module) : Prop :=
  ∀ token type enclosing, module.typeDef? token = some type → type.enclosing = some enclosing →
    (module.typeDef? enclosing).isSome ∧ enclosing.row < token.row

/-- Types that keep what encloses them stay behind it. -/
theorem NestedBehind.of_map (h : before.NestedBehind) {change : Token → TypeDef → TypeDef}
    (ht : ∀ token, after.typeDef? token = (before.typeDef? token).map (change token))
    (hkeep : ∀ token type, (change token type).enclosing = type.enclosing) : after.NestedBehind := by
  intro token type enclosing htype he
  rw [ht] at htype
  obtain ⟨old, ho, rfl⟩ := Option.map_eq_some_iff.mp htype
  rw [hkeep] at he
  rw [ht, Option.isSome_map]
  exact h token old enclosing ho he

theorem NestedBehind.of_eq (h : before.NestedBehind) (ht : after.typeDefs = before.typeDefs) :
    after.NestedBehind := by
  unfold NestedBehind typeDef?
  rw [ht]
  exact h

theorem row_le_of_typeDef? {type : TypeDef} (h : module.typeDef? token = some type) :
    token.row ≤ module.typeDefs.size := by
  obtain ⟨-, hz, hrow⟩ := rowAt?_eq_some h
  have hsize := (Array.getElem?_eq_some_iff.mp hrow).1
  omega

theorem nestedBehind_invariant : Invariant NestedBehind where
  new name versionId := by
    intro token type enclosing ht
    simp [typeDef?, rowAt?] at ht
  quiet hq h := h.of_eq hq.typeDefs_eq
  addType := by
    intro before after row token ha hfit h other type enclosing ht he
    have hsize : before.typeDefs.size + 1 < Token.rowLimit := by
      simpa [rowCount, (addType_spec ha).1] using hfit .typeDef
    have hkeep : (before.typeDef? enclosing).isSome → (after.typeDef? enclosing).isSome := by
      intro hs
      obtain ⟨outer, ho⟩ := Option.isSome_iff_exists.mp hs
      rw [(typeDef?_addType ha enclosing).1 outer ho]
      rfl
    rcases hold : before.typeDef? other with - | old
    · obtain ⟨rfl, rfl⟩ := (typeDef?_addType ha other).2 type hold ht
      have hs := (addType_spec ha).2 enclosing he
      obtain ⟨outer, ho⟩ := Option.isSome_iff_exists.mp hs
      have hrow := row_le_of_typeDef? ho
      rw [Token.row_ofRow hsize]
      exact ⟨hkeep hs, by omega⟩
    · rw [(typeDef?_addType ha other).1 old hold, Option.some.injEq] at ht
      subst ht
      obtain ⟨hs, hrow⟩ := h other _ enclosing hold he
      exact ⟨hkeep hs, hrow⟩
  addField ha _ h := by
    apply h.of_map (addField_spec ha).2.2.2
    intro token type
    split_ifs <;> rfl
  addMethod ha _ h := by
    apply h.of_map (addMethod_spec ha).2.2.2.2
    intro token type
    split_ifs <;> rfl
  addAttribute ha h := by
    obtain ⟨-, -, rfl⟩ := addAttribute_spec ha
    exact h
  setBody hs h := h.of_eq (by rw [(modifyMethod?_spec hs).2.1])

/-- Whether a type stands directly around another. -/
def Encloses (module : Module) (outer inner : Token) : Prop :=
  ∃ type, module.typeDef? inner = some type ∧ type.enclosing = some outer

/-- Rows decrease from a type to the one around it, so no chain of types runs in a circle. -/
theorem NestedBehind.wellFounded (h : module.NestedBehind) : WellFounded module.Encloses := by
  apply Subrelation.wf (r := InvImage (· < ·) Token.row)
  · rintro outer inner ⟨type, ht, he⟩
    exact (h inner type outer ht he).2
  · exact InvImage.wf Token.row Nat.lt_wfRel.wf

/-- The receiver of a method follows from its flags, the generic count from its parameters. -/
def Normalized (module : Module) : Prop :=
  ∀ token method, module.method? token = some method →
    method.sig.hasThis = !method.isStatic ∧ method.sig.genericCount = method.generics.length

theorem Normalized.of_eq (h : before.Normalized) (hm : after.methods = before.methods) : after.Normalized := by
  unfold Normalized method?
  rw [hm]
  exact h

theorem normalized_invariant : Invariant Normalized where
  new name versionId := by
    intro token method hm
    simp [method?, rowAt?] at hm
  quiet hq h := h.of_eq hq.methods_eq
  addType ha _ h := h.of_eq (by rw [(addType_spec ha).1])
  addField ha _ h := h.of_eq (by rw [(addField_spec ha).2.1])
  addMethod := by
    intro before after row token ha hfit h other method hm
    rw [method?, show after.methods = before.methods.push row.normalized by rw [(addMethod_spec ha).2.2.1]] at hm
    rcases rowAt?_push_cases hm with hm | ⟨rfl, -⟩
    · exact h other method hm
    · exact ⟨rfl, rfl⟩
  addAttribute ha h := h.of_eq (by rw [(addAttribute_spec ha).2.2])
  setBody := by
    intro before after token body hs h other method hm
    rw [(modifyMethod?_spec hs).2.2.2] at hm
    obtain ⟨old, ho, rfl⟩ := Option.map_eq_some_iff.mp hm
    split_ifs
    · exact h other old ho
    · exact h other old ho

/-- Attributes have something to belong to. -/
def Attached (module : Module) : Prop := ∀ row ∈ module.attributes, module.contains row.parent

theorem Attached.of_grows (h : before.Attached) (ha : after.attributes = before.attributes)
    (hg : Grows before after) (hs : before.userStrings.size ≤ after.userStrings.size) : after.Attached := by
  intro row hr
  rw [ha] at hr
  exact contains_mono hg hs (h row hr)

theorem attached_invariant : Invariant Attached where
  new name versionId := by simp [Attached]
  quiet hq h := h.of_grows (by rw [hq.same]) hq.grows hq.strings
  addType ha _ h := by
    have hsame := (addType_spec ha).1
    exact h.of_grows (by rw [hsame]) (Built.addType_grows ha) (by rw [hsame])
  addField ha _ h := by
    have hsame := (addField_spec ha).2.1
    exact h.of_grows (by rw [hsame]) (Built.addField_grows ha) (by rw [hsame])
  addMethod ha _ h := by
    have hsame := (addMethod_spec ha).2.2.1
    exact h.of_grows (by rw [hsame]) (addMethod_extension ha).grows (by rw [hsame])
  addAttribute := by
    intro before after row token ha h
    have hgrows := (Built.addAttribute_extension ha).grows
    obtain ⟨hparent, -, rfl⟩ := addAttribute_spec ha
    intro other hm
    rcases Array.mem_push.mp hm with hm | rfl
    · exact contains_mono hgrows le_rfl (h other hm)
    · exact contains_mono hgrows le_rfl hparent
  setBody hs h := by
    have hsame := (modifyMethod?_spec hs).2.1
    exact h.of_grows (by rw [hsame]) (setBody_extension none hs).grows (by rw [hsame])

end Definitions

/-- What holds of the tables of a module with one another. -/
structure Consistent (module : Module) : Prop where
  rows : ∀ token row, module.row? token = some row ↔
    ∃ table index, token = .ofRow table (index + 1) ∧ (module.rowsOf table)[index]? = some row
  strings : ∀ token value, module.userString? token = some value ↔
    ∃ index, token = .ofCode userStringCode (index + 1) ∧ module.userStrings[index]? = some value
  contents : ∀ token, module.contains token ↔ (module.row? token).isSome ∨ (module.userString? token).isSome
  methodOwner : ∀ token method, module.method? token = some method → (module.typeDef? method.owner).isSome
  fieldOwner : ∀ token field, module.field? token = some field → (module.typeDef? field.owner).isSome
  methodLists : ∀ owner type, module.typeDef? owner = some type →
    type.methods.Pairwise (fun a b => a.value < b.value) ∧
      ∀ token, token ∈ type.methods ↔ ∃ method, module.method? token = some method ∧ method.owner = owner
  fieldLists : ∀ owner type, module.typeDef? owner = some type →
    type.fields.Pairwise (fun a b => a.value < b.value) ∧
      ∀ token, token ∈ type.fields ↔ ∃ field, module.field? token = some field ∧ field.owner = owner
  distinct : module.Distinct
  nested : module.NestedBehind
  acyclic : WellFounded module.Encloses
  attached : module.Attached
  constructed : ∀ row ∈ module.attributes, module.Constructs row.constructor
  normalized : module.Normalized

/-- Lists agree with owners in both directions, and follow the table. -/
theorem Listing.exact {α : Type} {table : Table} {rows : Array α} {ownerOf : α → Token}
    {list? : Token → Option (List Token)} (h : Listing table (rows.toList.map ownerOf) list?)
    (hfit : rows.size < Token.rowLimit) {owner : Token} {list : List Token} (hl : list? owner = some list) :
    list.Pairwise (fun a b => a.value < b.value) ∧
      ∀ token, token ∈ list ↔ ∃ row, rowAt? table rows token = some row ∧ ownerOf row = owner := by
  rw [h.listed owner list hl]
  constructor
  · apply ownedBy_increasing
    rwa [List.length_map, Array.length_toList]
  · exact fun token => mem_ownedBy_rows hfit

theorem Listing.isSome_owner {α : Type} {table : Table} {rows : Array α} {ownerOf : α → Token}
    {list? : Token → Option (List Token)} (h : Listing table (rows.toList.map ownerOf) list?) {token : Token}
    {row : α} (hr : rowAt? table rows token = some row) : (list? (ownerOf row)).isSome := by
  apply h.owned
  obtain ⟨-, -, hrow⟩ := rowAt?_eq_some hr
  exact List.mem_map_of_mem (Array.mem_toList_iff.mpr (Array.mem_of_getElem? hrow))

theorem Built.consistent {module : Module} (h : Built module) (hfit : module.RowsFit)
    (hstrings : module.userStrings.size < Token.rowLimit) : module.Consistent where
  rows token row := row?_eq_some_iff hfit
  strings token value := userString?_eq_some_iff hstrings
  contents token := contains_iff
  methodOwner token method hm := by
    have howner := Listing.isSome_owner (h.holds methodsListed_invariant hfit) hm
    rwa [methodList?, Option.isSome_map] at howner
  fieldOwner token field hf := by
    have howner := Listing.isSome_owner (h.holds fieldsListed_invariant hfit) hf
    rwa [fieldList?, Option.isSome_map] at howner
  methodLists owner type ht := Listing.exact (h.holds methodsListed_invariant hfit) (hfit .methodDef)
    (by rw [methodList?, ht, Option.map_some])
  fieldLists owner type ht := Listing.exact (h.holds fieldsListed_invariant hfit) (hfit .field)
    (by rw [fieldList?, ht, Option.map_some])
  distinct := h.distinct
  nested := h.holds nestedBehind_invariant hfit
  acyclic := (h.holds nestedBehind_invariant hfit).wellFounded
  attached := h.holds attached_invariant hfit
  constructed row hr := h.constructs hr
  normalized := h.holds normalized_invariant hfit

end HotPatch.Module
