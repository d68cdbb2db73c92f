import HotPatch.Proofs.Module.BuildSteps

/-!
# Lists of members

A type lists its members and a member names its owner. Both tell the same as
long as each list holds the tokens of the rows with that owner, in the order of
the table. A new member comes last in the table and in the list of its owner.
-/

namespace HotPatch

section Owned

variable {table : Table} {owners : List Token} {owner token : Token}

/-- The tokens of the rows with the given owner, in table order. -/
def ownedBy (table : Table) (owners : List Token) (owner : Token) : List Token :=
  (owners.zipIdx.filter (·.1 == owner)).map fun member => .ofRow table (member.2 + 1)

theorem mem_ownedBy : token ∈ ownedBy table owners owner ↔
    ∃ index, owners[index]? = some owner ∧ token = .ofRow table (index + 1) := by
  unfold ownedBy
  rw [List.mem_map]
  constructor
  · rintro ⟨⟨other, index⟩, hm, rfl⟩
    rw [List.mem_filter, List.mem_zipIdx_iff_getElem?, beq_iff_eq] at hm
    obtain ⟨hrow, rfl⟩ := hm
    exact ⟨index, hrow, rfl⟩
  · rintro ⟨index, hrow, rfl⟩
    refine ⟨(owner, index), ?_, rfl⟩
    rw [List.mem_filter, List.mem_zipIdx_iff_getElem?]
    exact ⟨hrow, beq_self_eq_true owner⟩

theorem ownedBy_append (last : Token) : ownedBy table (owners ++ [last]) owner =
    ownedBy table owners owner ++ if last = owner then [.ofRow table (owners.length + 1)] else [] := by
  unfold ownedBy
  rw [List.zipIdx_append, List.filter_append, List.map_append]
  by_cases h : last = owner
  · simp [h]
  · simp [h]

theorem ownedBy_eq_nil (h : owner ∉ owners) : ownedBy table owners owner = [] := by
  apply List.eq_nil_iff_forall_not_mem.mpr
  intro token ht
  obtain ⟨index, hrow, -⟩ := mem_ownedBy.mp ht
  exact h (List.mem_of_getElem? hrow)

theorem Token.ofRow_lt_ofRow {a b : Nat} (h : a < b) (hb : b < Token.rowLimit) :
    (Token.ofRow table a).value < (Token.ofRow table b).value := by
  have hcode : table.code < 256 := by cases table <;> decide
  rw [UInt32.lt_iff_toNat_lt]
  simp only [Token.ofRow, Token.ofCode, Token.rowLimit, UInt32.toNat_ofNat'] at hb ⊢
  omega

theorem ownedBy_increasing (h : owners.length < Token.rowLimit) :
    (ownedBy table owners owner).Pairwise fun a b => a.value < b.value := by
  have hindices : owners.zipIdx.Pairwise fun a b => a.2 < b.2 := by
    rw [← List.pairwise_map, List.zipIdx_map_snd]
    exact List.pairwise_lt_range'
  unfold ownedBy
  rw [List.pairwise_map]
  refine (hindices.filter _).imp_of_mem fun {a b} ha hb hlt => ?_
  have hsize := (List.mem_zipIdx_iff_getElem?.mp (List.mem_of_mem_filter hb))
  have hbound := (List.getElem?_eq_some_iff.mp hsize).1
  exact Token.ofRow_lt_ofRow (by omega) (by omega)

/-- The rows with the owner are those that are found under the listed tokens. -/
theorem mem_ownedBy_rows {α : Type} {rows : Array α} {ownerOf : α → Token} (h : rows.size < Token.rowLimit) :
    token ∈ ownedBy table (rows.toList.map ownerOf) owner ↔
      ∃ row, rowAt? table rows token = some row ∧ ownerOf row = owner := by
  rw [mem_ownedBy]
  constructor
  · rintro ⟨index, hrow, rfl⟩
    rw [List.getElem?_map, Array.getElem?_toList, Option.map_eq_some_iff] at hrow
    obtain ⟨row, hrow, howner⟩ := hrow
    have hsize := (Array.getElem?_eq_some_iff.mp hrow).1
    exact ⟨row, by rw [rowAt?_ofRow (by omega) (by omega), Nat.add_sub_cancel, hrow], howner⟩
  · rintro ⟨row, hr, howner⟩
    obtain ⟨hin, hz, hrow⟩ := rowAt?_eq_some hr
    refine ⟨token.row - 1, ?_, ?_⟩
    · rw [List.getElem?_map, Array.getElem?_toList, hrow, Option.map_some, howner]
    · rw [Nat.sub_add_cancel (Nat.pos_of_ne_zero hz)]
      exact Token.eq_ofRow hin

end Owned

/-- Owners exist and list exactly their members. -/
structure Listing (table : Table) (owners : List Token) (list? : Token → Option (List Token)) : Prop where
  owned : ∀ owner ∈ owners, (list? owner).isSome
  listed : ∀ owner list, list? owner = some list → list = ownedBy table owners owner

namespace Listing

variable {table : Table} {owners : List Token} {list? list?' : Token → Option (List Token)} {owner : Token}

theorem congr (h : Listing table owners list?) (hl : ∀ owner, list?' owner = list? owner) :
    Listing table owners list?' := by
  obtain rfl : list?' = list? := funext hl
  exact h

/-- A new member comes last in the list of its owner. -/
theorem push (h : Listing table owners list?) (ho : (list? owner).isSome)
    (hl : ∀ other, list?' other = (list? other).map fun list =>
      if owner = other then list ++ [.ofRow table (owners.length + 1)] else list) :
    Listing table (owners ++ [owner]) list?' where
  owned := by
    intro other hm
    rw [hl, Option.isSome_map]
    rcases List.mem_append.mp hm with hm | hm
    · exact h.owned other hm
    · rw [List.mem_singleton.mp hm]
      exact ho
  listed := by
    intro other list hlist
    rw [hl] at hlist
    obtain ⟨old, hold, rfl⟩ := Option.map_eq_some_iff.mp hlist
    rw [ownedBy_append, ← h.listed other old hold]
    by_cases hown : owner = other
    · rw [if_pos hown, if_pos hown]
    · rw [if_neg hown, if_neg hown, List.append_nil]

/-- A new owner has no members. -/
theorem fresh (h : Listing table owners list?) (hkeep : ∀ owner, (list? owner).isSome → list?' owner = list? owner)
    (hnew : ∀ owner list, list? owner = none → list?' owner = some list → list = []) :
    Listing table owners list?' where
  owned := by
    intro owner hm
    rw [hkeep owner (h.owned owner hm)]
    exact h.owned owner hm
  listed := by
    intro owner list hlist
    rcases hold : list? owner with - | old
    · rw [hnew owner list hold hlist]
      refine (ownedBy_eq_nil fun hm => ?_).symm
      have hsome := h.owned owner hm
      rw [hold] at hsome
      cases hsome
    · rw [hkeep owner (by rw [hold]; rfl), hold] at hlist
      cases hlist
      exact h.listed owner _ hold

end Listing

namespace Module

/-- The methods that a type lists. -/
def methodList? (module : Module) (token : Token) : Option (List Token) :=
  (module.typeDef? token).map (·.methods)

/-- The fields that a type lists. -/
def fieldList? (module : Module) (token : Token) : Option (List Token) :=
  (module.typeDef? token).map (·.fields)

def methodOwners (module : Module) : List Token := module.methods.toList.map (·.owner)

def fieldOwners (module : Module) : List Token := module.fields.toList.map (·.owner)

def MethodsListed (module : Module) : Prop := Listing .methodDef module.methodOwners module.methodList?

def FieldsListed (module : Module) : Prop := Listing .field module.fieldOwners module.fieldList?

variable {before after : Module} {token : Token}

namespace Quiet

theorem typeDefs_eq (h : Quiet before after) : after.typeDefs = before.typeDefs := by rw [h.same]

theorem methods_eq (h : Quiet before after) : after.methods = before.methods := by rw [h.same]

theorem fields_eq (h : Quiet before after) : after.fields = before.fields := by rw [h.same]

end Quiet

/-- Lists and owners depend on nothing but types and members. -/
theorem methodsListed_of_eq (h : before.MethodsListed) (ht : after.typeDefs = before.typeDefs)
    (hm : after.methodOwners = before.methodOwners) : after.MethodsListed := by
  unfold MethodsListed
  rw [hm]
  apply Listing.congr h
  intro owner
  rw [methodList?, methodList?, typeDef?, typeDef?, ht]

theorem fieldsListed_of_eq (h : before.FieldsListed) (ht : after.typeDefs = before.typeDefs)
    (hf : after.fields = before.fields) : after.FieldsListed := by
  unfold FieldsListed fieldOwners
  rw [hf]
  apply Listing.congr h
  intro owner
  rw [fieldList?, fieldList?, typeDef?, typeDef?, ht]

/-- A new type lists nothing, and the others keep their lists. -/
theorem typeDef?_addType {row : TypeDef} (h : before.addType row = .ok (token, after)) (other : Token) :
    (∀ type, before.typeDef? other = some type → after.typeDef? other = some type) ∧
      ∀ type, before.typeDef? other = none → after.typeDef? other = some type →
        type = { row with fields := [], methods := [] } ∧
          other = .ofRow .typeDef (before.typeDefs.size + 1) := by
  have htypes : after.typeDefs = before.typeDefs.push { row with fields := [], methods := [] } := by
    rw [(addType_spec h).1]
  unfold typeDef?
  rw [htypes]
  constructor
  · intro type ht
    exact rowAt?_mono (toList_prefix_push _ _) ht
  · intro type hnone ht
    rcases rowAt?_push_cases ht with ht | ⟨rfl, hother⟩
    · rw [hnone] at ht
      cases ht
    · exact ⟨rfl, hother⟩

theorem Listing.addType {table : Table} {owners : List Token} {row : TypeDef} {members : TypeDef → List Token}
    (h : Listing table owners fun token => (before.typeDef? token).map members)
    (ha : before.addType row = .ok (token, after)) (hnil : members { row with fields := [], methods := [] } = []) :
    Listing table owners fun token => (after.typeDef? token).map members := by
  apply h.fresh
  · intro owner hs
    rw [Option.isSome_map] at hs
    obtain ⟨type, ht⟩ := Option.isSome_iff_exists.mp hs
    rw [ht, (typeDef?_addType ha owner).1 type ht]
  · intro owner list hnone hlist
    obtain ⟨type, ht, rfl⟩ := Option.map_eq_some_iff.mp hlist
    rw [((typeDef?_addType ha owner).2 type (Option.map_eq_none_iff.mp hnone) ht).1, hnil]

section Modified

variable {table : Table} {owners : List Token} {members : TypeDef → List Token} {change : TypeDef → TypeDef}
  {owner : Token} (h : Listing table owners fun token => (before.typeDef? token).map members)
  (ht : ∀ other, after.typeDef? other = (before.typeDef? other).map fun type =>
    if owner = other then change type else type)

include h ht

/-- A change of one type that keeps its list keeps all lists. -/
theorem Listing.unlisted (hkeep : ∀ type, members (change type) = members type) :
    Listing table owners fun token => (after.typeDef? token).map members := by
  apply h.congr
  intro other
  rw [ht, Option.map_map]
  congr 1
  funext type
  simp only [Function.comp_apply]
  split_ifs
  · exact hkeep type
  · rfl

/-- A change of one type that lists a new member there. -/
theorem Listing.listing (ho : (before.typeDef? owner).isSome)
    (hadd : ∀ type, members (change type) = members type ++ [.ofRow table (owners.length + 1)]) :
    Listing table (owners ++ [owner]) fun token => (after.typeDef? token).map members := by
  apply h.push
  · rw [Option.isSome_map]
    exact ho
  · intro other
    rw [ht, Option.map_map, Option.map_map]
    congr 1
    funext type
    simp only [Function.comp_apply]
    split_ifs
    · exact hadd type
    · rfl

end Modified

theorem typeDef?_of_addField {row : FieldDef} (h : before.addField row = .ok (token, after)) :
    (before.typeDef? row.owner).isSome := by
  unfold addField at h
  dsimp only at h
  split at h
  · rename_i hl
    exact (modifyType?_spec hl).1
  · cases h

theorem length_methodOwners (module : Module) : module.methodOwners.length = module.methods.size := by
  simp [methodOwners]

theorem length_fieldOwners (module : Module) : module.fieldOwners.length = module.fields.size := by
  simp [fieldOwners]

/-- Replacing a body keeps the owners. -/
theorem methodOwners_setBody {body : Option Body}
    (h : (before.modifyMethod? token fun row => { row with body }) = some after) :
    after.methodOwners = before.methodOwners := by
  unfold modifyMethod? at h
  obtain ⟨method, hm, rfl⟩ := Option.map_eq_some_iff.mp h
  obtain ⟨-, -, hrow⟩ := rowAt?_eq_some hm
  unfold methodOwners
  apply List.ext_getElem?
  intro index
  rw [List.getElem?_map, List.getElem?_map, Array.getElem?_toList, Array.getElem?_toList,
    Array.set!_eq_setIfInBounds, Array.getElem?_setIfInBounds]
  by_cases hi : token.row - 1 = index
  · subst hi
    have hsize := (Array.getElem?_eq_some_iff.mp hrow).1
    rw [if_pos rfl, if_pos hsize, hrow]
    rfl
  · rw [if_neg hi]

theorem methodsListed_invariant : Invariant MethodsListed where
  new name versionId := by
    refine ⟨by simp [methodOwners], fun owner list hl => ?_⟩
    simp [methodList?, typeDef?, rowAt?] at hl
  quiet hq h := methodsListed_of_eq h hq.typeDefs_eq (by rw [methodOwners, hq.methods_eq]; rfl)
  addType ha _ h := by
    have howners := congrArg methodOwners (addType_spec ha).1
    unfold MethodsListed
    rw [howners]
    exact Listing.addType h ha rfl
  addField ha _ h := by
    obtain ⟨-, hsame, -, htypes⟩ := addField_spec ha
    have howners := congrArg methodOwners hsame
    unfold MethodsListed
    rw [howners]
    exact Listing.unlisted h htypes fun type => rfl
  addMethod ha _ h := by
    obtain ⟨htoken, howner, hsame, -, htypes⟩ := addMethod_spec ha
    have howners := congrArg methodOwners hsame
    simp only [methodOwners, Array.toList_push, List.map_append, List.map_singleton] at howners
    unfold MethodsListed
    rw [methodOwners, howners]
    apply Listing.listing h htypes howner
    intro type
    rw [length_methodOwners, ← htoken]
  addAttribute ha h := by
    obtain ⟨-, -, rfl⟩ := addAttribute_spec ha
    exact methodsListed_of_eq h rfl rfl
  setBody hs h := by
    have hsame := (modifyMethod?_spec hs).2.1
    exact methodsListed_of_eq h (by rw [hsame]) (methodOwners_setBody hs)

theorem fieldsListed_invariant : Invariant FieldsListed where
  new name versionId := by
    refine ⟨by simp [fieldOwners], fun owner list hl => ?_⟩
    simp [fieldList?, typeDef?, rowAt?] at hl
  quiet hq h := fieldsListed_of_eq h hq.typeDefs_eq hq.fields_eq
  addType ha _ h := by
    have howners := congrArg fieldOwners (addType_spec ha).1
    unfold FieldsListed
    rw [howners]
    exact Listing.addType h ha rfl
  addField ha _ h := by
    obtain ⟨htoken, hsame, -, htypes⟩ := addField_spec ha
    have howners := congrArg fieldOwners hsame
    simp only [fieldOwners, Array.toList_push, List.map_append, List.map_singleton] at howners
    unfold FieldsListed
    rw [fieldOwners, howners]
    apply Listing.listing h htypes (typeDef?_of_addField ha)
    intro type
    rw [length_fieldOwners, ← htoken]
  addMethod ha _ h := by
    obtain ⟨-, -, hsame, -, htypes⟩ := addMethod_spec ha
    have howners := congrArg fieldOwners hsame
    unfold FieldsListed
    rw [howners]
    exact Listing.unlisted h htypes fun type => rfl
  addAttribute ha h := by
    obtain ⟨-, -, rfl⟩ := addAttribute_spec ha
    exact fieldsListed_of_eq h rfl rfl
  setBody hs h := by
    have hsame := (modifyMethod?_spec hs).2.1
    exact fieldsListed_of_eq h (by rw [hsame]) (by rw [hsame])

end Module
end HotPatch
