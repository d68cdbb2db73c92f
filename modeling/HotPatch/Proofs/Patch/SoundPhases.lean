import HotPatch.Proofs.Image.SoundImport
import HotPatch.Proofs.Patch.Frame
import HotPatch.Proofs.Patch.SoundBodies

/-!
# Phases keep a module sound

What each phase adds to a sound module can be encoded, and the bodies that it
makes declare the stack that they need. Neutralization rewrites methods that
return nothing, wrappers have the signatures of their methods with arguments for
the parameters, marks hold numbers and names, and the lookup table holds what
could be imported.
-/

namespace HotPatch

open Image
open Edit (KeepsSound)

section Neutralization

variable {module module' : Module} {token : Token}

/-- The token names a method that returns nothing. -/
def ReturnsNothing (module : Module) (token : Token) : Prop :=
  ∃ row, module.method? token = some row ∧ row.sig.returnType.isVoid

theorem ReturnsNothing.extension {container : Option Token} {wrappers : List Token} {p : Token → Prop}
    (h : ReturnsNothing module token) (he : Module.Extension container wrappers p module module') :
    ReturnsNothing module' token := by
  obtain ⟨row, hr, hv⟩ := h
  obtain ⟨body, hb, -⟩ := he.method token row hr
  exact ⟨_, hb, hv⟩

/-- One method has got another body that is sound. -/
theorem Image.Sound.setBody {row : MethodDef} {body : Body} (h : Sound module) (hr : module.method? token = some row)
    (hs : (module.modifyMethod? token fun row => { row with body := some body }) = some module')
    (hbody : SoundBody module.callSignature (!row.sig.returnType.isVoid) body)
    (hknown : Known module.documents.size body.instructions) : Sound module' := by
  have he := Module.setBody_extension none hs
  refine h.extension he (h.rows.setBody hs) fun method hm => ?_
  rcases Module.mem_methods_setBody hs hm with hold | ⟨other, ho, rfl⟩
  · exact .inl hold
  · rw [hr, Option.some.injEq] at ho
    subst ho
    have hsound : SoundMethod module.callSignature { row with body := some body } := by
      intro code hc
      cases hc
      exact hbody
    refine .inr ⟨SoundMethod.mono hsound fun _ _ => he.callSignature, fun code hc => ?_⟩
    cases hc
    rwa [he.documents]

/-- A return in front of a method that returns nothing does no harm. -/
theorem Image.Sound.insertReturn (h : Sound module) (hv : ReturnsNothing module token)
    (hi : module.insertInstruction token 0 returnInstruction = .ok module') : Sound module' := by
  obtain ⟨row, hr, hvoid⟩ := hv
  rcases hb : row.body with - | body
  · obtain ⟨other, ho, hi⟩ := bind_eq_ok.mp hi
    rw [require_eq_ok, hr, Option.some.injEq] at ho
    subst ho
    rw [hb] at hi
    cases hi
    exact h
  · obtain ⟨inserted, hins, hs⟩ := (Module.insertInstruction_eq_ok hr hb).mp hi
    rw [Body.insert_return] at hins
    cases hins
    have hsound := h.methods row (mem_of_rowAt? hr) body hb
    refine h.setBody hr hs ?_ (known_returning (h.known row (mem_of_rowAt? hr) body hb))
    rw [hvoid] at hsound ⊢
    exact SoundBody.returning hsound

theorem Image.Sound.insertReturns {tokens : List Token} (h : Sound module)
    (hv : ∀ token ∈ tokens, ReturnsNothing module token)
    (hi : tokens.foldlM (fun module token => module.insertInstruction token 0 returnInstruction) module =
      (.ok module' : Result Module)) : Sound module' := by
  induction tokens generalizing module with
  | nil =>
    cases hi
    exact h
  | cons token tokens ih =>
    rw [List.foldlM_cons] at hi
    obtain ⟨next, hn, hi⟩ := bind_eq_ok.mp hi
    exact ih (h.insertReturn (hv token (by simp)) hn)
      (fun other ho => (hv other (by simp [ho])).extension (insertInstruction_extension none hn)) hi

end Neutralization

section Wrappers

variable {module module' : Module} {token : Token} {request : WrapperRequest} {target : Wrapper.Target}

/-- The arguments can be encoded and are types of values. -/
def ValueArgs (args : List TypeSig) : Prop := ∀ arg ∈ args, arg.Encodes ∧ arg.isVoid = false

namespace Wrapper

theorem Checked.ownerSig_encodes (hc : Checked module request target)
    (hargs : ∀ arg ∈ request.typeArgs, arg.Encodes) : (ownerSig module request target).Encodes := by
  have howner : (module.typeSignature target.method.owner).isNamed ∧
      (module.typeSignature target.method.owner).Encodes := by
    have htoken : target.method.owner.NamesType :=
      Token.namesType_of_table? (.inl (Token.table_of_isIn (rowAt?_eq_some hc.owner).1))
    unfold Module.typeSignature
    split_ifs
    · exact ⟨rfl, TypeSig.encodes_valueType.mpr htoken⟩
    · exact ⟨rfl, TypeSig.encodes_class.mpr htoken⟩
  unfold ownerSig
  dsimp only
  split_ifs
  · exact TypeSig.encodes_generic.mpr ⟨howner.1, howner.2, hargs⟩
  · exact howner.2

/-- The wrapper has a signature that can be encoded, and returns a value if its method does. -/
theorem Checked.signature_encodes {sig : MethodSig} (hc : Checked module request target)
    (ht : Wrapper.target module request = .ok target) (hmethod : target.method.sig.Encodes)
    (hargs : ValueArgs (request.typeArgs ++ request.methodArgs)) (hs : signature module request = .ok sig) :
    sig.Encodes ∧ sig.returnType.isVoid = target.method.sig.returnType.isVoid := by
  obtain ⟨other, ho, hs⟩ := bind_eq_ok.mp hs
  rw [ht, Except.ok.injEq] at ho
  subst ho
  obtain ⟨concrete, hconcrete, hs⟩ := bind_eq_ok.mp hs
  cases hs
  have hencodes := hmethod.substitute (fun arg ha => (hargs arg ha).1) hconcrete
  have howner := hc.ownerSig_encodes fun arg ha => (hargs arg (List.mem_append_left _ ha)).1
  have hvoid := MethodSig.isVoid_substitute (fun arg ha => (hargs arg ha).2) hconcrete
  refine ⟨⟨hencodes.returnType, ?_⟩, hvoid⟩
  dsimp only
  split_ifs
  · refine List.forall_mem_cons.mpr ⟨?_, hencodes.params⟩
    unfold receiver
    dsimp only
    split_ifs
    · exact TypeSig.encodes_byRef.mpr howner
    · exact howner
  · exact hencodes.params

/-- The callee can be added to a sound module. -/
theorem callee_sound (h : Sound module) (hc : Checked module request target)
    (hargs : ∀ arg ∈ request.typeArgs ++ request.methodArgs, arg.Encodes)
    (hcallee : callee request target module = (.ok token, module')) : Sound module' := by
  have hmethod := h.rows.methods target.method (mem_of_rowAt? hc.method)
  have howner := hc.ownerSig_encodes fun arg ha => hargs arg (List.mem_append_left _ ha)
  unfold callee at hcallee
  rw [Edit.get_bind] at hcallee
  have hspec : ∀ member, KeepsSound (if target.method.isGeneric then
      Edit.always (·.addMethodSpec ⟨member, request.methodArgs⟩) else pure member) fun _ => True := by
    intro member
    split_ifs with hg
    · refine .addMethodSpec ⟨?_, fun arg ha => hargs arg (List.mem_append_right _ ha)⟩
      rw [← List.length_pos_iff, ← hc.methodArgs, List.length_pos_iff]
      simpa [MethodDef.isGeneric] using hg
    · exact .pure trivial
  by_cases hg : target.owner.isGeneric
  · rw [if_pos hg] at hcallee
    obtain ⟨ownerSpec, first, hs, hcallee⟩ := run_bind_eq_ok.mp hcallee
    obtain ⟨member, second, hm, hcallee⟩ := run_bind_eq_ok.mp hcallee
    have hfirst := (KeepsSound.addTypeSpec howner _ _ _ h hs).1
    have hsecond := (KeepsSound.addMemberRef hmethod _ _ _ hfirst hm).1
    exact (hspec member _ _ _ hsecond hcallee).1
  · rw [if_neg hg] at hcallee
    obtain ⟨member, first, hm, hcallee⟩ := run_bind_eq_ok.mp hcallee
    obtain ⟨rfl, rfl⟩ := run_pure_eq_ok.mp hm
    exact (hspec _ _ _ _ h hcallee).1

theorem MemberOf.callSignatureWithin {owner : TypeSig} (h : MemberOf module owner request target token)
    (hm : module.method? request.method = some target.method) :
    module.callSignatureWithin 1 token = .ok target.method.sig := by
  cases h with
  | definition => exact Module.callSignatureWithin_of_method? hm
  | reference _ found => exact Module.callSignatureWithin_of_memberRef? found

/-- The callee is called like the method. -/
theorem Reaches.callSignature {owner : TypeSig} (h : Reaches module owner request target token)
    (hm : module.method? request.method = some target.method) :
    module.callSignature token = .ok target.method.sig := by
  cases h with
  | plain _ reached =>
    exact (Module.Extension.refl none module).callSignatureWithin (by omega) (reached.callSignatureWithin hm)
  | instantiation _ found reached =>
    exact Module.callSignature_of_methodSpec? found (reached.callSignatureWithin hm)

/-- A wrapper can be added to a sound module. -/
theorem forward_sound (h : Sound module) (hargs : ValueArgs (request.typeArgs ++ request.methodArgs))
    (hfit : module'.RowsFit) (hf : forward request module = (.ok token, module')) : Sound module' := by
  obtain ⟨target, sig, callee, body, middle, ht, hs, hcallee, hb, ha⟩ := forward_eq_ok.mp hf
  have hc := target_ok ht
  obtain ⟨hencodes, hvoid⟩ := hc.signature_encodes ht (h.rows.methods target.method (mem_of_rowAt? hc.method)) hargs hs
  have hmiddle := callee_sound h hc (fun arg ha => (hargs arg ha).1) hcallee
  have hextension := Module.addMethod_extension ha
  have hmethod := ((callee_adds hcallee).method?_eq request.method).trans hc.method
  have hreaches := callee_reaches hcallee (hextension.grows.rowsFit hfit)
  have hsignature := hextension.callSignature (hreaches.callSignature hmethod)
  obtain ⟨hbody, hknown⟩ := Wrapper.soundBody hsignature hb
  refine hmiddle.extension hextension (hmiddle.rows.addMethod hencodes ha) fun method hm => ?_
  rw [(Module.addMethod_spec ha).2.2.1] at hm
  rcases Array.mem_push.mp hm with hm | rfl
  · exact .inl hm
  · refine .inr ⟨fun code hcode => ?_, fun code hcode => ?_⟩
    · cases hcode
      rw [← hvoid] at hbody
      exact hbody
    · cases hcode
      exact hknown _

end Wrapper

/-- A run of the generator keeps a module sound. -/
theorem Generates.sound {container : Token} {requests : List WrapperRequest} {wrappers : List Token}
    (h : Generates Wrapper.forward module requests wrappers module')
    (hc : ∀ request ∈ requests, request.container = container)
    (hargs : ∀ request ∈ requests, ValueArgs (request.typeArgs ++ request.methodArgs)) (hfit : module'.RowsFit)
    (hs : Sound module) : Sound module' := by
  induction h with
  | nil module => exact hs
  | cons first rest ih =>
    have hrest := rest.extension fun other ho => hc other (by simp [ho])
    exact ih (fun other ho => hc other (by simp [ho])) (fun other ho => hargs other (by simp [ho])) hfit
      (Wrapper.forward_sound hs (hargs _ (by simp)) (hrest.grows.rowsFit hfit) first)

end Wrappers

section Marks

variable {support : SupportTypes} {writer : MarkWriter}

theorem IndexMark.exists_encode (mark : IndexMark) : ∃ bytes, mark.value.encode = .ok bytes := ⟨_, rfl⟩

theorem exists_encodeAll_types (names : List String) :
    ∃ bytes, Attribute.Argument.encodeAll .type (names.map .type) = .ok bytes := by
  induction names with
  | nil => exact ⟨[], by rw [List.map_nil, Attribute.Argument.encodeAll]⟩
  | cons name names ih =>
    obtain ⟨rest, hr⟩ := ih
    rw [List.map_cons, Attribute.Argument.encodeAll]
    exact ⟨_, bind_eq_ok.mpr ⟨_, by rw [Attribute.Argument.encode], bind_eq_ok.mpr ⟨rest, hr, rfl⟩⟩⟩

/-- The number of names takes four bytes. -/
theorem WrapperMark.exists_encode {mark : WrapperMark} (h : mark.typeArguments.length < 0x100000000) :
    ∃ bytes, mark.value.encode = .ok bytes := by
  obtain ⟨names, hn⟩ := exists_encodeAll_types mark.typeArguments
  have harray : ∃ bytes, Attribute.Argument.encode (.vector .type) (.array (mark.typeArguments.map .type)) =
      .ok bytes := by
    rw [Attribute.Argument.encode, List.length_map, if_pos h]
    exact ⟨_, bind_eq_ok.mpr ⟨names, hn, rfl⟩⟩
  obtain ⟨array, ha⟩ := harray
  have hargs : ∃ args, mark.value.named.mapM Attribute.NamedArgument.encode = .ok args := by
    refine exists_mapM_eq_ok.mpr fun arg hm => ?_
    simp only [WrapperMark.value, List.mem_cons, List.not_mem_nil, or_false] at hm
    rcases hm with rfl | rfl | rfl
    · exact ⟨_, rfl⟩
    · exact ⟨_, rfl⟩
    · exact ⟨_, bind_eq_ok.mpr ⟨array, ha, rfl⟩⟩
  obtain ⟨args, hargs⟩ := hargs
  exact ⟨_, bind_eq_ok.mpr ⟨args, hargs, rfl⟩⟩

theorem constructorSig_encodes : SupportType.constructorSig.Encodes :=
  ⟨TypeSig.encodes_primitive .void, List.forall_mem_nil _⟩

theorem importConstructor_keepsSound (type : SupportType) :
    KeepsSound type.importConstructor fun _ => True :=
  (KeepsSound.addTypeRef _).bind fun _ _ => .addMemberRef constructorSig_encodes

theorem MarkWriter.create_keepsSound : KeepsSound (MarkWriter.create support) fun _ => True :=
  (importConstructor_keepsSound _).bind fun _ _ => (importConstructor_keepsSound _).bind
    fun _ _ => .pure trivial

theorem markMethod_keepsSound (method : Token) (index : Nat) :
    KeepsSound (writer.markMethod method index) fun _ => True := by
  intro module token next hs h
  unfold MarkWriter.markMethod at h
  rw [Edit.get_bind] at h
  split_ifs at h
  · exact absurd h Edit.throw_ne_ok
  · obtain ⟨mark, -, h⟩ := Edit.inspect_bind_eq_ok.mp h
    exact KeepsSound.addAttribute mark.exists_encode module token next hs h

theorem markWrapper_keepsSound (wrapper : Token) (index position : Nat) {args : List TypeSig}
    (hargs : args.length < 2 ^ 32) : KeepsSound (writer.markWrapper wrapper index position args) fun _ => True := by
  intro module token next hs h
  unfold MarkWriter.markWrapper at h
  rw [Edit.get_bind] at h
  split_ifs at h
  · exact absurd h Edit.throw_ne_ok
  · obtain ⟨mark, hm, h⟩ := Edit.inspect_bind_eq_ok.mp h
    obtain ⟨names, hn, hm⟩ := bind_eq_ok.mp hm
    obtain ⟨value, -, hm⟩ := bind_eq_ok.mp hm
    obtain ⟨place, -, hm⟩ := bind_eq_ok.mp hm
    cases hm
    have hlength := (mapM_eq_ok.mp hn).length_eq
    exact KeepsSound.addAttribute (WrapperMark.exists_encode (hlength ▸ hargs)) module token next hs h

/-- Marks can be added as long as the arguments can be counted. -/
theorem markRecords_keepsSound {records : List GenericRecord}
    (hargs : ∀ record ∈ records, ∀ inst ∈ record.instantiations, inst.allArgs.length < 2 ^ 32) :
    KeepsSound (markRecords support records) fun _ => True := by
  have hrecord : ∀ writer : MarkWriter, ∀ record ∈ records, KeepsSound (markRecord writer record) fun _ => True := by
    intro writer record hr
    unfold markRecord
    split
    · exact .pure trivial
    · refine (markMethod_keepsSound _ _).bind fun _ _ => KeepsSound.bind (.forM fun entry he => ?_)
        fun _ _ => .pure trivial
      have hinst := hargs record hr entry.1 (List.fst_mem_of_mem_zipIdx he)
      exact (KeepsSound.inspect fun _ _ _ _ => trivial).bind fun wrapper _ =>
        (markWrapper_keepsSound wrapper _ _ hinst).bind fun _ _ => .pure trivial
  exact MarkWriter.create_keepsSound.bind fun writer _ =>
    (KeepsSound.mapM (hrecord writer)).bind fun _ _ => .pure trivial

end Marks

section Table

variable {config : Config} {base before after : Module} {records : List GenericRecord} {entries : List LookupEntry}

namespace LookupTable

theorem addSig_encodes : addSig.Encodes :=
  ⟨TypeSig.encodes_primitive .void, List.forall_mem_cons.mpr
    ⟨TypeSig.encodes_typeParam 0, List.forall_mem_singleton.mpr (TypeSig.encodes_typeParam 1)⟩⟩

theorem importKeys_keepsSound (hbase : RowsEncode base) (done pending : List LookupEntry) :
    KeepsSound (importKeys base done pending) fun _ => True := by
  induction pending generalizing done with
  | nil => exact .pure trivial
  | cons entry rest ih =>
    rw [importKeys]
    refine (Module.importMethod_keepsSound hbase entry.base).bind fun key _ => ?_
    split_ifs
    · exact .fail _
    · exact ih _

/-- The constructor and the method of the dictionary are called with the signatures they are assembled with. -/
theorem Emission.callSignatures (emission : Emission config base records entries before after)
    (hfit : emission.referenced.RowsFit) :
    emission.referenced.callSignature emission.constructor = .ok SupportType.constructorSig ∧
      emission.referenced.callSignature emission.add = .ok addSig := by
  have hadds := emission.constructed.addMemberRef_adds ⟨emission.parent, "Add", addSig⟩
  rw [emission.adds] at hadds
  have hconstructed := (hadds.extension none).grows.rowsFit hfit
  have hconstructor := hadds.memberRef? (Module.memberRef?_addMemberRef emission.creates hconstructed)
  have hadd := Module.memberRef?_addMemberRef emission.adds hfit
  exact ⟨Module.callSignatureWithin_of_memberRef? hconstructor, Module.callSignatureWithin_of_memberRef? hadd⟩

/-- The table can be emitted into a sound module. -/
theorem Emission.sound (emission : Emission config base records entries before after) (hbase : RowsEncode base)
    (hfit : after.RowsFit) (h : Sound before) : Sound after := by
  obtain ⟨row, type, key, value, hr, hreturn, hshape⟩ := emission.answers
  have hvalue : row.sig.returnType.isVoid = false := by
    rw [hshape]
    rfl
  have hdictionary : emission.dictionary.Encodes := by
    rw [← hreturn]
    exact (h.rows.methods row (mem_of_rowAt? hr)).returnType
  have himported := (importKeys_keepsSound hbase [] _ _ _ _ h emission.keyed).1
  have hspecified := (KeepsSound.addTypeSpec hdictionary _ _ _ himported (Edit.always_eq_ok.mpr emission.parented)).1
  have hconstructed :=
    (KeepsSound.addMemberRef constructorSig_encodes _ _ _ hspecified (Edit.always_eq_ok.mpr emission.creates)).1
  have hreferenced := (KeepsSound.addMemberRef addSig_encodes _ _ _ hconstructed
    (Edit.always_eq_ok.mpr emission.adds)).1
  have hfits := (Module.setBody_extension none emission.replaced).grows.rowsFit hfit
  obtain ⟨hcreate, hcall⟩ := emission.callSignatures hfits
  obtain ⟨hbody, hknown⟩ := LookupTable.soundBody hcreate hcall emission.assembled
  rw [← emission.adds_references.method?_eq] at hr
  refine hreferenced.setBody hr emission.replaced ?_ (hknown _)
  rwa [hvalue]

end LookupTable
end Table
end HotPatch
