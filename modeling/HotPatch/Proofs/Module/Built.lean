import HotPatch.Proofs.Module.Extension

/-!
# Modules that were built step by step

A module is built from an empty one by additions that succeed. In such a module
the enclosing type of a definition is a definition, the methods that a type
lists are its own, and each method is listed by its owner.
-/

namespace HotPatch.Module

/-- The modules that additions lead to. The body of a method may be replaced at any time. -/
inductive Built : Module → Prop where
  | new (name : String) (versionId : VersionId) : Built { name, versionId }
  | addTypeRef {module : Module} (h : Built module) (row : TypeRef) : Built (module.addTypeRef row).2
  | addMemberRef {module : Module} (h : Built module) (row : MemberRef) : Built (module.addMemberRef row).2
  | addTypeSpec {module : Module} (h : Built module) (sig : TypeSig) : Built (module.addTypeSpec sig).2
  | addMethodSpec {module : Module} (h : Built module) (row : MethodSpec) :
    Built (module.addMethodSpec row).2
  | addUserString {module : Module} (h : Built module) (value : String) :
    Built (module.addUserString value).2
  | addDocument {module : Module} (h : Built module) (name : String) : Built (module.addDocument name).2
  | addLocals {module : Module} (h : Built module) (types : List TypeSig) :
    Built (module.addLocals types).2
  | addType {module module' : Module} (h : Built module) {row : TypeDef} {token : Token}
    (ha : module.addType row = .ok (token, module')) : Built module'
  | addField {module module' : Module} (h : Built module) {row : FieldDef} {token : Token}
    (ha : module.addField row = .ok (token, module')) : Built module'
  | addMethod {module module' : Module} (h : Built module) {row : MethodDef} {token : Token}
    (ha : module.addMethod row = .ok (token, module')) : Built module'
  | addAttribute {module module' : Module} (h : Built module) {row : CustomAttribute} {token : Token}
    (ha : module.addAttribute row = .ok (token, module')) : Built module'
  | setBody {module module' : Module} (h : Built module) {token : Token} {body : Option Body}
    (hs : (module.modifyMethod? token fun row => { row with body }) = some module') : Built module'

/-- Every table is small enough for its rows to have tokens. -/
def RowsFit (module : Module) : Prop := ∀ table, module.rowCount table < Token.rowLimit

/-- What the definitions of a module have to do with one another. -/
structure WellFormed (module : Module) : Prop where
  enclosing : ∀ token type enclosing, module.typeDef? token = some type →
    type.enclosing = some enclosing → (module.typeDef? enclosing).isSome
  listed : ∀ token type method, module.typeDef? token = some type → method ∈ type.methods →
    ∃ row, module.method? method = some row ∧ row.owner = token
  owned : ∀ method row, module.method? method = some row →
    ∃ type, module.typeDef? row.owner = some type ∧ method ∈ type.methods

section Changes

variable {module module' : Module} {token : Token}

theorem modifyType?_spec {change : TypeDef → TypeDef} (h : module.modifyType? token change = some module') :
    (module.typeDef? token).isSome ∧ module' = { module with typeDefs := module'.typeDefs } ∧
      module'.typeDefs.size = module.typeDefs.size ∧
      ∀ other, module'.typeDef? other =
        (module.typeDef? other).map fun type => if token = other then change type else type := by
  unfold modifyType? at h
  rcases ht : module.typeDef? token with - | type
  · rw [ht] at h
    cases h
  · rw [ht, Option.map_some, Option.some.injEq] at h
    subst h
    refine ⟨rfl, rfl, by simp [Array.set!_eq_setIfInBounds], fun other => ?_⟩
    exact rowAt?_modify ht change

theorem modifyMethod?_spec {change : MethodDef → MethodDef}
    (h : module.modifyMethod? token change = some module') :
    (module.method? token).isSome ∧ module' = { module with methods := module'.methods } ∧
      module'.methods.size = module.methods.size ∧
      ∀ other, module'.method? other =
        (module.method? other).map fun method => if token = other then change method else method := by
  unfold modifyMethod? at h
  rcases ht : module.method? token with - | method
  · rw [ht] at h
    cases h
  · rw [ht, Option.map_some, Option.some.injEq] at h
    subst h
    refine ⟨rfl, rfl, by simp [Array.set!_eq_setIfInBounds], fun other => ?_⟩
    exact rowAt?_modify ht change

/-- Replacing a body extends a module. -/
theorem setBody_extension {body : Option Body} (container : Option Token)
    (h : (module.modifyMethod? token fun row => { row with body }) = some module') :
    Extension container [] (· = token) module module' := by
  obtain ⟨-, hsame, hsize, hmethod⟩ := modifyMethod?_spec h
  have htypes : module'.typeDefs = module.typeDefs := by rw [hsame]
  constructor
  case method =>
    intro other row hr
    rw [hmethod, hr, Option.map_some]
    by_cases he : token = other
    · exact ⟨body, by rw [if_pos he], fun _ => he.symm⟩
    · exact ⟨row.body, by rw [if_neg he], fun hne => absurd rfl hne⟩
  case methodCount => simpa using hsize
  case newMethods => rfl
  case typeDef =>
    intro other
    rw [typeDef?, htypes, ← typeDef?]
    cases module.typeDef? other <;> simp
  case toKeepsReferences =>
    exact .of_eq (by rw [hsame]) (by rw [hsame]) (by rw [hsame]) (by rw [hsame])
  all_goals rw [hsame]

theorem typeRef?_addTypeRef {row : TypeRef} (h : module.addTypeRef row = (token, module'))
    (hfit : module'.RowsFit) : module'.typeRef? token = some row := by
  cases h
  exact rowAt?_shareRow (hfit .typeRef)

theorem memberRef?_addMemberRef {row : MemberRef} (h : module.addMemberRef row = (token, module'))
    (hfit : module'.RowsFit) : module'.memberRef? token = some row := by
  cases h
  exact rowAt?_shareRow (hfit .memberRef)

theorem typeSpec?_addTypeSpec {sig : TypeSig} (h : module.addTypeSpec sig = (token, module'))
    (hfit : module'.RowsFit) : module'.typeSpec? token = some ⟨sig⟩ := by
  cases h
  exact rowAt?_shareRow (hfit .typeSpec)

theorem methodSpec?_addMethodSpec {row : MethodSpec} (h : module.addMethodSpec row = (token, module'))
    (hfit : module'.RowsFit) : module'.methodSpec? token = some row := by
  cases h
  exact rowAt?_shareRow (hfit .methodSpec)

/-- What adding a method does. -/
theorem addMethod_spec {row : MethodDef} (h : module.addMethod row = .ok (token, module')) :
    token = .ofRow .methodDef (module.methods.size + 1) ∧ (module.typeDef? row.owner).isSome ∧
      module' = { module with typeDefs := module'.typeDefs, methods := module.methods.push row.normalized } ∧
      module'.typeDefs.size = module.typeDefs.size ∧
      ∀ other, module'.typeDef? other = (module.typeDef? other).map fun type =>
        if row.owner = other then { type with methods := type.methods ++ [token] } else type := by
  unfold addMethod at h
  dsimp only at h
  split at h
  · rename_i listed hl
    obtain ⟨hs, hsame, hsize, htypes⟩ := modifyType?_spec hl
    cases h
    exact ⟨rfl, hs, by rw [hsame], hsize, htypes⟩
  · cases h

/-- Adding a method succeeds exactly if the owner is there. -/
theorem exists_addMethod_iff (row : MethodDef) :
    (∃ token module', module.addMethod row = .ok (token, module')) ↔ (module.typeDef? row.owner).isSome := by
  constructor
  · rintro ⟨token, module', h⟩
    exact (addMethod_spec h).2.1
  · intro h
    obtain ⟨type, ht⟩ := Option.isSome_iff_exists.mp h
    unfold addMethod modifyType?
    rw [ht]
    exact ⟨_, _, rfl⟩

/-- Adding a method extends a module at the owner. -/
theorem addMethod_extension {row : MethodDef} (h : module.addMethod row = .ok (token, module')) :
    Extension (some row.owner) [token] (fun _ => False) module module' := by
  obtain ⟨htoken, -, hsame, hsize, htypes⟩ := addMethod_spec h
  have hmethods : module'.methods = module.methods.push row.normalized := by rw [hsame]
  constructor
  case method =>
    intro other old hr
    refine ⟨old.body, ?_, fun hne => absurd rfl hne⟩
    rw [method?, hmethods]
    exact rowAt?_mono (toList_prefix_push _ _) hr
  case methodCount => simp [hmethods]
  case newMethods => simp [htoken]
  case typeDef => simpa using htypes
  case typeDefCount => exact hsize
  case toKeepsReferences =>
    exact .of_eq (by rw [hsame]) (by rw [hsame]) (by rw [hsame]) (by rw [hsame])
  all_goals rw [hsame]

/-- What adding a field does. -/
theorem addField_spec {row : FieldDef} (h : module.addField row = .ok (token, module')) :
    token = .ofRow .field (module.fields.size + 1) ∧
      module' = { module with typeDefs := module'.typeDefs, fields := module.fields.push row } ∧
      module'.typeDefs.size = module.typeDefs.size ∧
      ∀ other, module'.typeDef? other = (module.typeDef? other).map fun type =>
        if row.owner = other then { type with fields := type.fields ++ [token] } else type := by
  unfold addField at h
  dsimp only at h
  split at h
  · rename_i listed hl
    obtain ⟨-, hsame, hsize, htypes⟩ := modifyType?_spec hl
    cases h
    exact ⟨rfl, by rw [hsame], hsize, htypes⟩
  · cases h

/-- What adding a type does. -/
theorem addType_spec {row : TypeDef} (h : module.addType row = .ok (token, module')) :
    module' = { module with
      typeDefs := module.typeDefs.push { row with fields := [], methods := [] } } ∧
      ∀ enclosing, row.enclosing = some enclosing → (module.typeDef? enclosing).isSome := by
  unfold addType at h
  split at h
  · cases h
  · rename_i hne
    split at h
    · cases h
    · cases h
      refine ⟨rfl, fun enclosing he => ?_⟩
      by_contra hn
      have hf : row.enclosing.filter (fun enclosing => (module.typeDef? enclosing).isNone) =
          some enclosing := by
        simp [he, Option.filter, Option.not_isSome_iff_eq_none.mp hn]
      rw [hne] at hf
      cases hf

/-- Whether a token names a method that an attribute can be constructed by. -/
def Constructs (module : Module) (constructor : Token) : Prop :=
  (constructor.isIn .methodDef ∨ constructor.isIn .memberRef) ∧ module.contains constructor

theorem addAttribute_spec {row : CustomAttribute} (h : module.addAttribute row = .ok (token, module')) :
    module.contains row.parent ∧ module.Constructs row.constructor ∧
      module' = { module with attributes := module.attributes.push row } := by
  unfold addAttribute at h
  split_ifs at h with hp hc
  cases h
  simp only [Bool.not_eq_true', Bool.not_eq_false] at hp
  simp only [Bool.and_eq_true, Bool.or_eq_true] at hc
  exact ⟨hp, hc, rfl⟩

end Changes

section Counts

/-- No table lost a row. -/
def Grows (before after : Module) : Prop := ∀ table, before.rowCount table ≤ after.rowCount table

variable {a b : Module}

theorem size_le_size {α : Type} {rows more : Array α} (h : rows.toList <+: more.toList) :
    rows.size ≤ more.size := by
  simpa using h.length_le

theorem Extension.grows {container : Option Token} {wrappers : List Token} {p : Token → Prop}
    (h : Extension container wrappers p a b) : Grows a b := by
  intro table
  cases table with
  | typeRef => exact size_le_size h.typeRefs
  | typeDef => exact h.typeDefCount.ge
  | field => exact (congrArg Array.size h.fields).ge
  | methodDef => exact Nat.le.intro h.methodCount.symm
  | memberRef => exact size_le_size h.memberRefs
  | customAttribute => exact size_le_size h.attributes
  | standAloneSig => exact (congrArg Array.size h.locals).ge
  | typeSpec => exact size_le_size h.typeSpecs
  | methodSpec => exact size_le_size h.methodSpecs

theorem Grows.rowsFit (h : Grows a b) (hb : b.RowsFit) : a.RowsFit := fun table =>
  Nat.lt_of_le_of_lt (h table) (hb table)

/-- A row that was there is still there. -/
theorem Grows.contains (h : Grows a b) {token : Token} {table : Table} (ht : token.isIn table)
    (hc : a.contains token) : b.contains token := by
  have htable := Token.table_of_isIn ht
  have hcode : token.tableCode ≠ userStringCode := by
    intro he
    have hin : token.tableCode = table.code := by simpa [Token.isIn] using ht
    rw [hin] at he
    cases table <;> cases he
  simp only [Module.contains, htable, if_neg hcode, Option.any_some, Bool.and_eq_true,
    decide_eq_true_eq] at hc ⊢
  exact ⟨hc.1, hc.2.trans (h table)⟩

theorem Grows.constructs (h : Grows a b) {constructor : Token} (hc : a.Constructs constructor) :
    b.Constructs constructor := by
  obtain ⟨hin | hin, hc⟩ := hc
  · exact ⟨.inl hin, h.contains hin hc⟩
  · exact ⟨.inr hin, h.contains hin hc⟩

end Counts

namespace Extension

variable {a b : Module} {container : Option Token} {wrappers : List Token} {p : Token → Prop}

/-- New methods have tokens that nothing had before. -/
theorem method?_eq_none_of_mem (h : Extension container wrappers p a b) (hfit : b.RowsFit) {token : Token}
    (ht : token ∈ wrappers) : a.method? token = none := by
  rw [h.newMethods] at ht
  obtain ⟨number, hn, rfl⟩ := List.mem_map.mp ht
  obtain ⟨hle, hlt⟩ := List.mem_range'_1.mp hn
  have hsize := h.methodCount
  have hbound : b.methods.size < Token.rowLimit := hfit .methodDef
  rw [method?, rowAt?_ofRow (by omega) (by omega), Array.getElem?_eq_none_iff]
  omega

/-- All methods of the extension are old or new. -/
theorem method?_cases (h : Extension container wrappers p a b) {token : Token}
    (ht : (b.method? token).isSome) : (a.method? token).isSome ∨ token ∈ wrappers := by
  obtain ⟨row, hr⟩ := Option.isSome_iff_exists.mp ht
  obtain ⟨hin, hz, hrow⟩ := rowAt?_eq_some hr
  obtain ⟨hlt, -⟩ := Array.getElem?_eq_some_iff.mp hrow
  have hsize := h.methodCount
  by_cases hold : token.row - 1 < a.methods.size
  · left
    rw [method?, rowAt?, if_pos ⟨hin, hz⟩, Array.getElem?_eq_getElem hold]
    rfl
  · right
    rw [h.newMethods, Token.eq_ofRow hin]
    refine List.mem_map_of_mem (List.mem_range'_1.mpr ⟨by omega, by omega⟩)

end Extension

/-- The token of an added method leads to its row. -/
theorem method?_addMethod {module module' : Module} {row : MethodDef} {token : Token}
    (h : module.addMethod row = .ok (token, module')) (hfit : module'.RowsFit) :
    module'.method? token = some row.normalized := by
  obtain ⟨htoken, -, hsame, -, -⟩ := addMethod_spec h
  have hmethods : module'.methods = module.methods.push row.normalized := by rw [hsame]
  have hsize : module.methods.size + 1 < Token.rowLimit := by
    simpa [rowCount, hmethods] using hfit .methodDef
  rw [method?, hmethods, htoken]
  exact rowAt?_push hsize

namespace WellFormed

variable {module module' : Module}

/-- Definitions that keep what matters here stay well-formed. -/
theorem of_same (h : module.WellFormed)
    (htypes : ∀ token type, module'.typeDef? token = some type → ∃ old, module.typeDef? token = some old ∧
      type.enclosing = old.enclosing ∧ type.methods = old.methods)
    (hkeep : ∀ token old, module.typeDef? token = some old → ∃ type, module'.typeDef? token = some type ∧
      type.methods = old.methods)
    (hmethods : ∀ token row, module'.method? token = some row → ∃ old, module.method? token = some old ∧
      row.owner = old.owner)
    (hstay : ∀ token old, module.method? token = some old → ∃ row, module'.method? token = some row ∧
      row.owner = old.owner) :
    module'.WellFormed where
  enclosing := by
    intro token type enclosing ht he
    obtain ⟨old, ho, hsame, -⟩ := htypes token type ht
    obtain ⟨outer, houter⟩ := Option.isSome_iff_exists.mp (h.enclosing token old enclosing ho (hsame ▸ he))
    obtain ⟨new, hn, -⟩ := hkeep enclosing outer houter
    rw [hn]
    rfl
  listed := by
    intro token type method ht hm
    obtain ⟨old, ho, -, hsame⟩ := htypes token type ht
    obtain ⟨row, hr, howner⟩ := h.listed token old method ho (hsame ▸ hm)
    obtain ⟨new, hn, hne⟩ := hstay method row hr
    exact ⟨new, hn, hne.trans howner⟩
  owned := by
    intro method row hr
    obtain ⟨old, ho, howner⟩ := hmethods method row hr
    obtain ⟨type, ht, hm⟩ := h.owned method old ho
    obtain ⟨new, hn, hsame⟩ := hkeep old.owner type ht
    exact ⟨new, howner ▸ hn, hsame ▸ hm⟩

theorem of_eq (h : module.WellFormed) (ht : module'.typeDefs = module.typeDefs)
    (hm : module'.methods = module.methods) : module'.WellFormed := by
  have htypes : ∀ token, module'.typeDef? token = module.typeDef? token := fun token => by
    rw [typeDef?, typeDef?, ht]
  have hmethods : ∀ token, module'.method? token = module.method? token := fun token => by
    rw [method?, method?, hm]
  refine h.of_same ?_ ?_ ?_ ?_
  · intro token type ht
    exact ⟨type, (htypes token) ▸ ht, rfl, rfl⟩
  · intro token old ho
    exact ⟨old, (htypes token).trans ho, rfl⟩
  · intro token row hr
    exact ⟨row, (hmethods token) ▸ hr, rfl⟩
  · intro token old ho
    exact ⟨old, (hmethods token).trans ho, rfl⟩

theorem addField (h : module.WellFormed) {row : FieldDef} {token : Token}
    (ha : module.addField row = .ok (token, module')) : module'.WellFormed := by
  obtain ⟨-, hsame, -, htypes⟩ := addField_spec ha
  have hmethods : ∀ other, module'.method? other = module.method? other := fun other => by
    rw [method?, method?, show module'.methods = module.methods by rw [hsame]]
  refine h.of_same ?_ ?_ ?_ ?_
  · intro other type ht
    rw [htypes] at ht
    obtain ⟨old, ho, rfl⟩ := Option.map_eq_some_iff.mp ht
    exact ⟨old, ho, by split_ifs <;> rfl, by split_ifs <;> rfl⟩
  · intro other old ho
    exact ⟨_, by rw [htypes, ho, Option.map_some], by split_ifs <;> rfl⟩
  · intro other r hr
    exact ⟨r, (hmethods other) ▸ hr, rfl⟩
  · intro other old ho
    exact ⟨old, (hmethods other).trans ho, rfl⟩

/-- An extension is well-formed if the container exists and owns the new methods. -/
theorem extension {container : Option Token} {wrappers : List Token} {p : Token → Prop}
    (h : module.WellFormed) (he : Extension container wrappers p module module')
    (hnew : ∀ method ∈ wrappers, ∃ row, module'.method? method = some row ∧
      container = some row.owner ∧ (module.typeDef? row.owner).isSome) : module'.WellFormed where
  enclosing := by
    intro token type enclosing ht hs
    rw [he.typeDef] at ht
    obtain ⟨old, ho, rfl⟩ := Option.map_eq_some_iff.mp ht
    rw [he.typeDef?_isSome]
    refine h.enclosing token old enclosing ho ?_
    split_ifs at hs <;> exact hs
  listed := by
    intro token type method ht hm
    rw [he.typeDef] at ht
    obtain ⟨old, ho, rfl⟩ := Option.map_eq_some_iff.mp ht
    have hlisted : method ∈ old.methods →
        ∃ row, module'.method? method = some row ∧ row.owner = token := by
      intro hm
      obtain ⟨row, hr, howner⟩ := h.listed token old method ho hm
      obtain ⟨body, hb, -⟩ := he.method method row hr
      exact ⟨_, hb, howner⟩
    split_ifs at hm with hc
    · rcases List.mem_append.mp hm with hm | hm
      · exact hlisted hm
      · obtain ⟨row, hr, howner, -⟩ := hnew method hm
        rw [hc, Option.some.injEq] at howner
        exact ⟨row, hr, howner.symm⟩
    · exact hlisted hm
  owned := by
    intro method row hr
    rcases he.method?_cases (Option.isSome_iff_exists.mpr ⟨row, hr⟩) with hs | hm
    · obtain ⟨old, ho⟩ := Option.isSome_iff_exists.mp hs
      obtain ⟨body, hb, -⟩ := he.method method old ho
      rw [hr, Option.some.injEq] at hb
      subst hb
      obtain ⟨type, ht, hm⟩ := h.owned method old ho
      refine ⟨_, by rw [he.typeDef, ht, Option.map_some], ?_⟩
      split_ifs
      · exact List.mem_append_left _ hm
      · exact hm
    · obtain ⟨row', hr', hc, hs⟩ := hnew method hm
      rw [hr, Option.some.injEq] at hr'
      subst hr'
      obtain ⟨type, ht⟩ := Option.isSome_iff_exists.mp hs
      refine ⟨_, by rw [he.typeDef, ht, Option.map_some], ?_⟩
      rw [if_pos hc]
      exact List.mem_append_right _ hm

theorem addMethod (h : module.WellFormed) (hfit : module'.RowsFit) {row : MethodDef} {token : Token}
    (ha : module.addMethod row = .ok (token, module')) : module'.WellFormed := by
  obtain ⟨-, howner, -, -, -⟩ := addMethod_spec ha
  refine h.extension (addMethod_extension ha) fun method hm => ?_
  rw [List.mem_singleton.mp hm]
  exact ⟨_, method?_addMethod ha hfit, rfl, howner⟩

theorem addType (h : module.WellFormed) {row : TypeDef} {token : Token}
    (ha : module.addType row = .ok (token, module')) : module'.WellFormed := by
  obtain ⟨hsame, henclosing⟩ := addType_spec ha
  have htypes : module'.typeDefs = module.typeDefs.push { row with fields := [], methods := [] } := by
    rw [hsame]
  have hold : ∀ other type, module.typeDef? other = some type → module'.typeDef? other = some type := by
    intro other type ht
    rw [typeDef?, htypes]
    exact rowAt?_mono (toList_prefix_push _ _) ht
  have hmethod : ∀ method, module'.method? method = module.method? method := by
    intro method
    rw [method?, method?, show module'.methods = module.methods by rw [hsame]]
  refine ⟨?_, ?_, ?_⟩
  · intro other type enclosing ht he
    rw [typeDef?, htypes] at ht
    have hs : (module.typeDef? enclosing).isSome := by
      rcases rowAt?_push_cases ht with ht | ⟨rfl, -⟩
      · exact h.enclosing other type enclosing ht he
      · exact henclosing enclosing he
    obtain ⟨outer, ho⟩ := Option.isSome_iff_exists.mp hs
    rw [hold enclosing outer ho]
    rfl
  · intro other type method ht hm
    rw [typeDef?, htypes] at ht
    rcases rowAt?_push_cases ht with ht | ⟨rfl, -⟩
    · rw [hmethod]
      exact h.listed other type method ht hm
    · cases hm
  · intro method r hr
    rw [hmethod] at hr
    obtain ⟨type, ht, hm⟩ := h.owned method r hr
    exact ⟨type, hold _ type ht, hm⟩

end WellFormed

namespace Built

variable {module : Module}

/-- Each addition lets the tables grow. -/
theorem grows_of_push {before after : Module} (h : after = { before with
    userStrings := after.userStrings, typeDefs := after.typeDefs, fields := after.fields,
    locals := after.locals, documents := after.documents })
    (ht : before.typeDefs.size ≤ after.typeDefs.size) (hf : before.fields.size ≤ after.fields.size)
    (hl : before.locals.size ≤ after.locals.size) : Grows before after := by
  intro table
  rw [h]
  cases table <;> simp [rowCount, ht, hf, hl]

theorem addUserString_grows (module : Module) (value : String) :
    Grows module (module.addUserString value).2 :=
  grows_of_push rfl le_rfl le_rfl le_rfl

theorem addDocument_grows (module : Module) (name : String) : Grows module (module.addDocument name).2 :=
  grows_of_push rfl le_rfl le_rfl le_rfl

theorem addLocals_grows (module : Module) (types : List TypeSig) : Grows module (module.addLocals types).2 :=
  grows_of_push rfl le_rfl le_rfl (size_le_size (toList_prefix_push module.locals ⟨types⟩))

theorem addType_grows {before after : Module} {row : TypeDef} {token : Token}
    (h : before.addType row = .ok (token, after)) : Grows before after := by
  have hsame := (addType_spec h).1
  have hsize : before.typeDefs.size ≤ after.typeDefs.size := by
    rw [hsame]
    simp
  exact grows_of_push (by rw [hsame]) hsize (by rw [hsame]) (by rw [hsame])

theorem addField_grows {before after : Module} {row : FieldDef} {token : Token}
    (h : before.addField row = .ok (token, after)) : Grows before after := by
  obtain ⟨-, hsame, hsize, -⟩ := addField_spec h
  have hfields : before.fields.size ≤ after.fields.size := by
    rw [hsame]
    simp
  exact grows_of_push (by rw [hsame]) hsize.ge hfields (by rw [hsame])

theorem addAttribute_extension {before after : Module} {row : CustomAttribute} {token : Token}
    (h : before.addAttribute row = .ok (token, after)) :
    Extension none [] (fun _ => False) before after := by
  obtain ⟨-, -, rfl⟩ := addAttribute_spec h
  exact .of_attributes none rfl (toList_prefix_push _ _)

/-- The tables of a module that was built stand in the relations that its definitions should have. -/
theorem wellFormed (h : Built module) (hfit : module.RowsFit) : module.WellFormed := by
  have hextended : ∀ {a b : Module} {p : Token → Prop}, Extension none [] p a b → b.RowsFit →
      (a.RowsFit → a.WellFormed) → b.WellFormed := by
    intro a b p he hfit ih
    exact (ih (he.grows.rowsFit hfit)).extension he fun method hm => by cases hm
  induction h with
  | new name versionId =>
    constructor
    · intro token type enclosing ht
      simp [typeDef?, rowAt?] at ht
    · intro token type method ht
      simp [typeDef?, rowAt?] at ht
    · intro method row hr
      simp [method?, rowAt?] at hr
  | @addTypeRef before _ row ih => exact hextended ((before.addTypeRef_adds row).extension none) hfit ih
  | @addMemberRef before _ row ih => exact hextended ((before.addMemberRef_adds row).extension none) hfit ih
  | @addTypeSpec before _ sig ih => exact hextended ((before.addTypeSpec_adds sig).extension none) hfit ih
  | @addMethodSpec before _ row ih =>
    exact hextended ((before.addMethodSpec_adds row).extension none) hfit ih
  | addUserString _ value ih => exact (ih ((addUserString_grows _ value).rowsFit hfit)).of_eq rfl rfl
  | addDocument _ name ih => exact (ih ((addDocument_grows _ name).rowsFit hfit)).of_eq rfl rfl
  | addLocals _ types ih => exact (ih ((addLocals_grows _ types).rowsFit hfit)).of_eq rfl rfl
  | addType _ ha ih => exact (ih ((addType_grows ha).rowsFit hfit)).addType ha
  | addField _ ha ih => exact (ih ((addField_grows ha).rowsFit hfit)).addField ha
  | addMethod _ ha ih => exact (ih ((addMethod_extension ha).grows.rowsFit hfit)).addMethod hfit ha
  | addAttribute _ ha ih => exact hextended (addAttribute_extension ha) hfit ih
  | setBody _ hs ih => exact hextended (setBody_extension none hs) hfit ih

/-- Attributes have constructors. -/
theorem constructs (h : Built module) {row : CustomAttribute} (hr : row ∈ module.attributes) :
    module.Constructs row.constructor := by
  induction h with
  | new name versionId => simp at hr
  | @addTypeRef before _ row ih => exact ((before.addTypeRef_adds row).extension none).grows.constructs (ih hr)
  | @addMemberRef before _ row ih =>
    exact ((before.addMemberRef_adds row).extension none).grows.constructs (ih hr)
  | @addTypeSpec before _ sig ih =>
    exact ((before.addTypeSpec_adds sig).extension none).grows.constructs (ih hr)
  | @addMethodSpec before _ row ih =>
    exact ((before.addMethodSpec_adds row).extension none).grows.constructs (ih hr)
  | addUserString _ value ih => exact (addUserString_grows _ value).constructs (ih hr)
  | addDocument _ name ih => exact (addDocument_grows _ name).constructs (ih hr)
  | addLocals _ types ih => exact (addLocals_grows _ types).constructs (ih hr)
  | addType _ ha ih =>
    refine (addType_grows ha).constructs (ih ?_)
    rwa [(addType_spec ha).1] at hr
  | addField _ ha ih =>
    refine (addField_grows ha).constructs (ih ?_)
    rwa [(addField_spec ha).2.1] at hr
  | addMethod _ ha ih =>
    refine (addMethod_extension ha).grows.constructs (ih ?_)
    rwa [(addMethod_spec ha).2.2.1] at hr
  | addAttribute _ ha ih =>
    have hgrows := (addAttribute_extension ha).grows
    obtain ⟨-, hc, hsame⟩ := addAttribute_spec ha
    rw [hsame, Array.mem_push] at hr
    rcases hr with hr | rfl
    · exact hgrows.constructs (ih hr)
    · exact hgrows.constructs hc
  | setBody _ hs ih =>
    refine (setBody_extension none hs).grows.constructs (ih ?_)
    rwa [(modifyMethod?_spec hs).2.1] at hr

end Built

section Links

variable {module module' : Module}

/-- Neither the base nor the enclosing type is null. -/
structure Linked (type : TypeDef) : Prop where
  base : ∀ base, type.base = some base → base.isNull = false
  enclosing : ∀ enclosing, type.enclosing = some enclosing → enclosing.isNull = false

theorem rowAt?_of_isNull {α : Type} {table : Table} {rows : Array α} {token : Token} (h : token.isNull) :
    rowAt? table rows token = none := by
  obtain ⟨value⟩ := token
  obtain rfl : value = 0 := eq_of_beq h
  rw [rowAt?, if_neg]
  exact fun hc => hc.2 rfl

/-- A new type is linked, as null names no type. -/
theorem linked_addType {row : TypeDef} {token : Token} (h : module.addType row = .ok (token, module')) :
    Linked row := by
  have henclosing := (addType_spec h).2
  refine ⟨fun base hb => ?_, fun enclosing he => ?_⟩
  · by_contra hn
    rw [Bool.not_eq_false] at hn
    have hname : (module.fullName base).isOk = false := by
      rw [fullName, nestedName, typeDef?, rowAt?_of_isNull hn, typeRef?, rowAt?_of_isNull hn]
      rfl
    have hspec : module.typeSpec? base = none := rowAt?_of_isNull hn
    unfold addType at h
    split at h
    · cases h
    · rw [hb, Option.filter_some, hname, hspec] at h
      cases h
  · by_contra hn
    rw [Bool.not_eq_false] at hn
    have hsome := henclosing enclosing he
    rw [typeDef?, rowAt?_of_isNull hn] at hsome
    cases hsome

/-- The types of a changed table are old ones, one of them changed. -/
theorem mem_modifyType? {token : Token} {change : TypeDef → TypeDef} {type : TypeDef}
    (h : module.modifyType? token change = some module') (ht : type ∈ module'.typeDefs) :
    type ∈ module.typeDefs ∨ ∃ old ∈ module.typeDefs, type = change old := by
  unfold modifyType? at h
  obtain ⟨old, ho, rfl⟩ := Option.map_eq_some_iff.mp h
  obtain ⟨-, -, hrow⟩ := rowAt?_eq_some ho
  dsimp only at ht
  rw [Array.set!_eq_setIfInBounds] at ht
  rcases Array.mem_or_eq_of_mem_setIfInBounds ht with ht | rfl
  · exact .inl ht
  · exact .inr ⟨old, Array.mem_of_getElem? hrow, rfl⟩

/-- Types stay linked if a change keeps their links. -/
theorem linked_modifyType? {token : Token} {change : TypeDef → TypeDef}
    (h : module.modifyType? token change = some module')
    (hkeeps : ∀ type, (change type).base = type.base ∧ (change type).enclosing = type.enclosing)
    (hl : ∀ type ∈ module.typeDefs, Linked type) : ∀ type ∈ module'.typeDefs, Linked type := by
  intro type ht
  rcases mem_modifyType? h ht with ht | ⟨old, ho, rfl⟩
  · exact hl type ht
  · obtain ⟨hbase, henclosing⟩ := hkeeps old
    exact ⟨hbase ▸ (hl old ho).base, henclosing ▸ (hl old ho).enclosing⟩

theorem linked_addField {row : FieldDef} {token : Token} (h : module.addField row = .ok (token, module'))
    (hl : ∀ type ∈ module.typeDefs, Linked type) : ∀ type ∈ module'.typeDefs, Linked type := by
  unfold Module.addField at h
  dsimp only at h
  split at h
  · rename_i listed hm
    have hlisted := linked_modifyType? hm (fun _ => ⟨rfl, rfl⟩) hl
    cases h
    exact hlisted
  · cases h

theorem linked_addMethod {row : MethodDef} {token : Token} (h : module.addMethod row = .ok (token, module'))
    (hl : ∀ type ∈ module.typeDefs, Linked type) : ∀ type ∈ module'.typeDefs, Linked type := by
  unfold Module.addMethod at h
  dsimp only at h
  split at h
  · rename_i listed hm
    have hlisted := linked_modifyType? hm (fun _ => ⟨rfl, rfl⟩) hl
    cases h
    exact hlisted
  · cases h

/-- In a module that was built, all types are linked. -/
theorem Built.linked (h : Built module) : ∀ type ∈ module.typeDefs, Linked type := by
  induction h with
  | new name versionId => simp
  | addTypeRef _ row ih => exact ih
  | addMemberRef _ row ih => exact ih
  | addTypeSpec _ sig ih => exact ih
  | addMethodSpec _ row ih => exact ih
  | addUserString _ value ih => exact ih
  | addDocument _ name ih => exact ih
  | addLocals _ types ih => exact ih
  | addType _ ha ih =>
    intro type ht
    rw [(addType_spec ha).1, Array.mem_push] at ht
    rcases ht with ht | rfl
    · exact ih type ht
    · exact ⟨(linked_addType ha).base, (linked_addType ha).enclosing⟩
  | addField _ ha ih => exact linked_addField ha ih
  | addMethod _ ha ih => exact linked_addMethod ha ih
  | addAttribute _ ha ih =>
    rw [(addAttribute_spec ha).2.2]
    exact ih
  | setBody _ hs ih =>
    rw [(modifyMethod?_spec hs).2.1]
    exact ih

end Links

section Building

variable {module : Module}

/-- Adds a type if its owner and base are there. -/
def withType (module : Module) (row : TypeDef) : Module :=
  match module.addType row with
  | .ok (_, extended) => extended
  | .error _ => module

/-- Adds a method if its owner is there. -/
def withMethod (module : Module) (row : MethodDef) : Module :=
  match module.addMethod row with
  | .ok (_, extended) => extended
  | .error _ => module

/-- Adds an attribute if its parent and constructor are there. -/
def withAttribute (module : Module) (row : CustomAttribute) : Module :=
  match module.addAttribute row with
  | .ok (_, extended) => extended
  | .error _ => module

theorem Built.withType (h : Built module) (row : TypeDef) : Built (module.withType row) := by
  unfold Module.withType
  split
  · rename_i ha
    exact h.addType ha
  · exact h

theorem Built.withMethod (h : Built module) (row : MethodDef) : Built (module.withMethod row) := by
  unfold Module.withMethod
  split
  · rename_i ha
    exact h.addMethod ha
  · exact h

theorem Built.withAttribute (h : Built module) (row : CustomAttribute) : Built (module.withAttribute row) := by
  unfold Module.withAttribute
  split
  · rename_i ha
    exact h.addAttribute ha
  · exact h

end Building
end HotPatch.Module
