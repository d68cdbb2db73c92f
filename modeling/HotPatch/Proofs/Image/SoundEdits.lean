import HotPatch.Proofs.Image.Writable
import HotPatch.Proofs.Module.StableImport

/-!
# Edits of sound modules

A sound module stays sound if the rows that are added can be encoded and the
bodies that are added or replaced are sound. Calls in the other bodies are
resolved as before, since look-ups find what they found.
-/

namespace HotPatch

open Image

section CallSignature

variable {a b : Module} {container : Option Token} {wrappers : List Token} {p : Token → Prop}

/-- Whatever could be called before is called with the same signature. -/
theorem Module.Extension.callSignatureWithin (h : Extension container wrappers p a b) {fuel more : Nat}
    (hle : fuel ≤ more) {token : Token} {sig : MethodSig} (hs : a.callSignatureWithin fuel token = .ok sig) :
    b.callSignatureWithin more token = .ok sig := by
  induction fuel generalizing more token with
  | zero => cases hs
  | succ fuel ih =>
    obtain ⟨more, rfl⟩ : ∃ rest, more = rest + 1 := ⟨more - 1, by omega⟩
    rw [Module.callSignatureWithin] at hs ⊢
    split at hs
    · obtain ⟨row, hr, rfl⟩ := map_eq_ok.mp hs
      obtain ⟨body, hb, -⟩ := h.method token row (require_eq_ok.mp hr)
      exact map_eq_ok.mpr ⟨_, require_eq_ok.mpr hb, rfl⟩
    · obtain ⟨row, hr, rfl⟩ := map_eq_ok.mp hs
      exact map_eq_ok.mpr ⟨row, require_eq_ok.mpr (h.memberRef? (require_eq_ok.mp hr)), rfl⟩
    · obtain ⟨row, hr, hs⟩ := bind_eq_ok.mp hs
      exact bind_eq_ok.mpr ⟨row, require_eq_ok.mpr (h.methodSpec? (require_eq_ok.mp hr)), ih (by omega) hs⟩
    · cases hs

theorem Module.Extension.callSignature (h : Extension container wrappers p a b) {token : Token} {sig : MethodSig}
    (hs : a.callSignature token = .ok sig) : b.callSignature token = .ok sig :=
  h.callSignatureWithin (Nat.succ_le_succ (Module.size_le_size h.methodSpecs)) hs

variable {module : Module} {token : Token} {fuel : Nat}

theorem Module.callSignatureWithin_of_method? {row : MethodDef} (h : module.method? token = some row) :
    module.callSignatureWithin (fuel + 1) token = .ok row.sig := by
  rw [callSignatureWithin, Token.table_of_isIn (rowAt?_eq_some h).1]
  exact map_eq_ok.mpr ⟨row, require_eq_ok.mpr h, rfl⟩

theorem Module.callSignatureWithin_of_memberRef? {row : MemberRef} (h : module.memberRef? token = some row) :
    module.callSignatureWithin (fuel + 1) token = .ok row.sig := by
  rw [callSignatureWithin, Token.table_of_isIn (rowAt?_eq_some h).1]
  exact map_eq_ok.mpr ⟨row, require_eq_ok.mpr h, rfl⟩

/-- An instantiation of a definition or of a member is called with the signature of these. -/
theorem Module.callSignature_of_methodSpec? {row : MethodSpec} {sig : MethodSig}
    (h : module.methodSpec? token = some row) (hs : module.callSignatureWithin 1 row.method = .ok sig) :
    module.callSignature token = .ok sig := by
  have hrow := rowAt?_eq_some h
  obtain ⟨hlt, -⟩ := Array.getElem?_eq_some_iff.mp hrow.2.2
  rw [callSignature, callSignatureWithin, Token.table_of_isIn hrow.1]
  have hrest := (Module.Extension.refl none module).callSignatureWithin (by omega : 1 ≤ module.methodSpecs.size) hs
  exact bind_eq_ok.mpr ⟨row, require_eq_ok.mpr h, hrest⟩

end CallSignature

section Rows

variable {module module' : Module} {token : Token}

theorem mem_shareRow {α : Type} [DecidableEq α] {rows : Array α} {row other : α}
    (h : other ∈ (shareRow rows row).2) : other ∈ rows ∨ other = row := by
  unfold shareRow at h
  split at h
  · exact .inl h
  · exact Array.mem_push.mp h

namespace Image.RowsEncode

theorem addTypeRef (h : RowsEncode module) (row : TypeRef) : RowsEncode (module.addTypeRef row).2 :=
  ⟨h.fields, h.methods, h.memberRefs, h.attributes, h.locals, h.typeSpecs, h.methodSpecs⟩

theorem addMemberRef (h : RowsEncode module) {row : MemberRef} (hs : row.sig.Encodes) :
    RowsEncode (module.addMemberRef row).2 where
  fields := h.fields
  methods := h.methods
  memberRefs other ho := by
    rcases mem_shareRow ho with ho | rfl
    · exact h.memberRefs other ho
    · exact hs
  attributes := h.attributes
  locals := h.locals
  typeSpecs := h.typeSpecs
  methodSpecs := h.methodSpecs

theorem addTypeSpec (h : RowsEncode module) {sig : TypeSig} (hs : sig.Encodes) :
    RowsEncode (module.addTypeSpec sig).2 where
  fields := h.fields
  methods := h.methods
  memberRefs := h.memberRefs
  attributes := h.attributes
  locals := h.locals
  typeSpecs other ho := by
    rcases mem_shareRow ho with ho | rfl
    · exact h.typeSpecs other ho
    · exact hs
  methodSpecs := h.methodSpecs

theorem addMethodSpec (h : RowsEncode module) {row : MethodSpec}
    (hs : row.args ≠ [] ∧ ∀ arg ∈ row.args, arg.Encodes) : RowsEncode (module.addMethodSpec row).2 where
  fields := h.fields
  methods := h.methods
  memberRefs := h.memberRefs
  attributes := h.attributes
  locals := h.locals
  typeSpecs := h.typeSpecs
  methodSpecs other ho := by
    rcases mem_shareRow ho with ho | rfl
    · exact h.methodSpecs other ho
    · exact hs

theorem addAttribute (h : RowsEncode module) {row : CustomAttribute}
    (hv : ∃ bytes, row.value.encode = .ok bytes) (ha : module.addAttribute row = .ok (token, module')) :
    RowsEncode module' := by
  rw [(Module.addAttribute_spec ha).2.2]
  refine ⟨h.fields, h.methods, h.memberRefs, fun other ho => ?_, h.locals, h.typeSpecs, h.methodSpecs⟩
  rcases Array.mem_push.mp ho with ho | rfl
  · exact h.attributes other ho
  · exact hv

theorem addMethod (h : RowsEncode module) {row : MethodDef} (hs : row.sig.Encodes)
    (ha : module.addMethod row = .ok (token, module')) : RowsEncode module' := by
  rw [(Module.addMethod_spec ha).2.2.1]
  refine ⟨h.fields, fun other ho => ?_, h.memberRefs, h.attributes, h.locals, h.typeSpecs, h.methodSpecs⟩
  rcases Array.mem_push.mp ho with ho | rfl
  · exact h.methods other ho
  · exact ⟨hs.returnType, hs.params⟩

end Image.RowsEncode

/-- The only row that may be new is the one with the new body. -/
theorem Module.mem_methods_setBody {body : Option Body}
    (hs : (module.modifyMethod? token fun row => { row with body }) = some module') {method : MethodDef}
    (hm : method ∈ module'.methods) : method ∈ module.methods ∨
      ∃ row, module.method? token = some row ∧ method = { row with body } := by
  unfold Module.modifyMethod? at hs
  obtain ⟨row, hr, rfl⟩ := Option.map_eq_some_iff.mp hs
  rw [Array.set!_eq_setIfInBounds] at hm
  rcases Array.mem_or_eq_of_mem_setIfInBounds hm with hm | rfl
  · exact .inl hm
  · exact .inr ⟨row, hr, rfl⟩

theorem Image.RowsEncode.setBody (h : RowsEncode module) {body : Option Body}
    (hs : (module.modifyMethod? token fun row => { row with body }) = some module') : RowsEncode module' := by
  have hmethods : ∀ method ∈ module'.methods, method.sig.Encodes := by
    intro method hm
    rcases Module.mem_methods_setBody hs hm with hm | ⟨row, hr, rfl⟩
    · exact h.methods method hm
    · exact h.methods row (mem_of_rowAt? hr)
  rw [(Module.modifyMethod?_spec hs).2.1]
  exact ⟨h.fields, hmethods, h.memberRefs, h.attributes, h.locals, h.typeSpecs, h.methodSpecs⟩

end Rows

section Sound

variable {a b : Module} {container : Option Token} {wrappers : List Token} {p : Token → Prop} {token : Token}
  {method : MethodDef}

theorem SoundMethod.mono {signature signature' : Token → Result MethodSig} (h : SoundMethod signature method)
    (hs : ∀ token sig, signature token = .ok sig → signature' token = .ok sig) : SoundMethod signature' method := by
  intro body hb hsize
  obtain ⟨hfits, depths, hc⟩ := h body hb hsize
  exact ⟨hfits, depths, hc.mono hs (Nat.le_refl _)⟩

/-- The method has a sound body whose source spans are in known documents. -/
structure SoundRow (module : Module) (method : MethodDef) : Prop where
  sound : SoundMethod module.callSignature method
  known : ∀ body, method.body = some body → Known module.documents.size body.instructions

/-- An extension with rows that can be encoded is sound, if the methods that are new in it are. -/
theorem Image.Sound.extension (h : Sound a) (he : Module.Extension container wrappers p a b)
    (hrows : RowsEncode b) (hm : ∀ method ∈ b.methods, method ∈ a.methods ∨ SoundRow b method) : Sound b := by
  have hdocuments : b.documents = a.documents := he.documents
  refine ⟨hrows, fun method hmem => ?_, fun method hmem body hb => ?_, ?_, ?_⟩
  · rcases hm method hmem with hold | hnew
    · exact SoundMethod.mono (h.methods method hold) fun _ _ hs => he.callSignature hs
    · exact hnew.sound
  · rcases hm method hmem with hold | hnew
    · rw [hdocuments]
      exact h.known method hold body hb
    · exact hnew.known body hb
  · rw [hdocuments]
    exact h.documents
  · rw [hdocuments]
    exact h.names

theorem Image.Sound.addsReferences (h : Sound a) (ha : a.AddsReferences b) (hrows : RowsEncode b) : Sound b :=
  h.extension (ha.extension none) hrows fun method hm => .inl (by rwa [← ha.methods_eq])

end Sound
end HotPatch
