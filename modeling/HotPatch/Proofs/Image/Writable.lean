import HotPatch.Proofs.Code.DepthCertificate
import HotPatch.Proofs.Image.Layout
import HotPatch.Proofs.Image.Symbols
import HotPatch.Proofs.Module.Built
import HotPatch.Proofs.Signature.Encodable

/-!
# Modules that can be written

A module can be written exactly if its rows and bodies can be encoded, its
bodies declare enough stack, its source spans are in known documents, and the
sections of the image stay below the limit.
-/

namespace HotPatch.Image

open Content (tables present rows)

variable {module : Module}

/-- Every row that holds a signature or a value can be encoded. -/
structure RowsEncode (module : Module) : Prop where
  fields : ∀ row ∈ module.fields, row.type.Encodes
  methods : ∀ row ∈ module.methods, row.sig.Encodes
  memberRefs : ∀ row ∈ module.memberRefs, row.sig.Encodes
  attributes : ∀ row ∈ module.attributes, ∃ bytes, row.value.encode = .ok bytes
  locals : ∀ row ∈ module.locals, ∀ type ∈ row.types, type.Encodes
  typeSpecs : ∀ row ∈ module.typeSpecs, row.sig.Encodes
  methodSpecs : ∀ row ∈ module.methodSpecs, row.args ≠ [] ∧ ∀ arg ∈ row.args, arg.Encodes

section Rows

theorem mem_blobs_tables {blob : Result Bytes} : blob ∈ (tables module).blobs ↔
    ∃ table, ∃ content ∈ rows module table, blob ∈ content.blobs := by
  simp only [tables, Content.blobs_append, List.mem_append, Content.mem_blobs_concat, List.mem_map]
  constructor
  · rintro (hb | ⟨content, ⟨table, -, rfl⟩, hb⟩ | ⟨content, ⟨table, -, rfl⟩, hb⟩)
    · cases hb
    · cases hb
    · exact ⟨table, Content.mem_blobs_concat.mp hb⟩
  · rintro ⟨table, content, hc, hb⟩
    refine .inr (.inr ⟨_, ⟨table, ?_, rfl⟩, Content.mem_blobs_concat.mpr ⟨content, hc, hb⟩⟩)
    rw [Content.mem_present, ← Content.length_rows]
    exact List.length_pos_of_mem hc

theorem rows_encode_iff : (∀ blob ∈ (tables module).blobs, ∃ bytes, blob = .ok bytes) ↔ RowsEncode module := by
  have hall : (∀ blob ∈ (tables module).blobs, ∃ bytes, blob = .ok bytes) ↔
      ∀ table, ∀ content ∈ rows module table, ∀ blob ∈ content.blobs, ∃ bytes, blob = .ok bytes := by
    simp only [mem_blobs_tables]
    exact ⟨fun h table content hc blob hb => h blob ⟨table, content, hc, hb⟩,
      fun h blob ⟨table, content, hc, hb⟩ => h table content hc blob hb⟩
  have hfield : ∀ row, (Content.field row).blobs = [row.type.encodeField] := fun _ => rfl
  have hmember : ∀ row, (Content.memberRef row).blobs = [row.sig.encode] := fun _ => rfl
  have hattribute : ∀ row, (Content.customAttribute row).blobs = [row.value.encode] := fun _ => rfl
  have hspec : ∀ row, (Content.methodSpec row).blobs = [TypeSig.encodeMethodInstantiation row.args] :=
    fun _ => rfl
  have hblob : ∀ value, (Content.blob value).blobs = [value] := fun _ => rfl
  rw [hall]
  constructor
  · intro h
    have hfields := h .field
    have hmethods := h .methodDef
    have hmembers := h .memberRef
    have hattributes := h .customAttribute
    have hlocals := h .standAloneSig
    have htypes := h .typeSpec
    have hspecs := h .methodSpec
    simp only [rows, List.forall_mem_map, Array.mem_toList_iff, hfield, Content.blobs_method, hmember,
      hattribute, hspec, hblob, List.forall_mem_singleton, TypeSig.exists_encodeField, MethodSig.exists_encode,
      TypeSig.exists_encodeLocals, TypeSig.exists_encodeMethodInstantiation] at *
    exact ⟨hfields, hmethods, hmembers, hattributes, hlocals, htypes, hspecs⟩
  · intro h table
    obtain ⟨hfields, hmethods, hmembers, hattributes, hlocals, htypes, hspecs⟩ := h
    cases table
    case typeRef =>
      intro content hc blob hb
      obtain ⟨row, -, rfl⟩ := List.mem_map.mp hc
      rw [Content.blobs_typeRef] at hb
      cases hb
    case typeDef =>
      intro content hc blob hb
      obtain ⟨row, -, rfl⟩ := List.mem_map.mp hc
      rw [Content.blobs_typeDef] at hb
      cases hb
    all_goals
      simp only [rows, List.forall_mem_map, Array.mem_toList_iff, hfield, Content.blobs_method, hmember,
        hattribute, hspec, hblob, List.forall_mem_singleton, TypeSig.exists_encodeField, MethodSig.exists_encode,
        TypeSig.exists_encodeLocals, TypeSig.exists_encodeMethodInstantiation]
      assumption

theorem counts_concat_of_none {α : Type} {items : List α} {content : α → Content}
    (h : ∀ item, (content item).counts = []) : (Content.concat (items.map content)).counts = [] := by
  induction items with
  | nil => rfl
  | cons item items ih => rw [List.map_cons, Content.concat, Content.counts_append, h, ih, List.append_nil]

/-- The only counts that may be too large are the numbers of rows. -/
theorem mem_counts_tables {count : Nat} (h : count ∈ (tables module).counts) :
    ∃ table, count = module.rowCount table := by
  have hstrings : ∀ values, (Content.strings4 values).counts = [] := fun _ => counts_concat_of_none fun _ => rfl
  have htokens : ∀ values, (Content.tokens values).counts = [] := fun values =>
    (counts_concat_of_none fun _ : Token => (rfl : (Content.bytes 4).counts = []) :
      (Content.concat (values.map fun _ => Content.bytes 4)).counts = [])
  have hrows : ∀ table, ∀ content ∈ rows module table, content.counts = [] := by
    intro table content hc
    cases table <;> obtain ⟨row, -, rfl⟩ := List.mem_map.mp hc
    case typeRef =>
      obtain ⟨name | enclosing, name⟩ := row
      · rfl
      · rfl
    case typeDef =>
      simp [Content.typeDef, Content.typeName, Content.bytes, Content.string, hstrings, htokens]
    case methodDef => simp [Content.method, Content.bytes, Content.string, Content.blob, hstrings]
    all_goals rfl
  simp only [tables, Content.counts_append, List.mem_append, Content.mem_counts_concat, List.mem_map] at h
  rcases h with h | ⟨content, ⟨table, -, rfl⟩, h⟩ | ⟨content, ⟨table, -, rfl⟩, h⟩
  · cases h
  · exact ⟨table, by simpa [Content.bytes, Content.count] using h⟩
  · obtain ⟨row, hr, hrow⟩ := Content.mem_counts_concat.mp h
    rw [hrows table row hr] at hrow
    cases hrow

end Rows

section Bodies

open Code (codeSize codeLimit Certificate)

/-- As long as its code is short enough, the body can be encoded and declares the stack that it needs. -/
def SoundBody (signature : Token → Result MethodSig) (returnsValue : Bool) (body : Body) : Prop :=
  codeSize body.instructions < codeLimit → (∃ code, body.Fits code) ∧
    ∃ depths, Certificate signature returnsValue body body.maxStack.toNat depths

/-- The body of the method is sound, if there is one. -/
def SoundMethod (signature : Token → Result MethodSig) (method : MethodDef) : Prop :=
  ∀ body, method.body = some body → SoundBody signature (!method.sig.returnType.isVoid) body

/-- What a module needs to be written, apart from small enough sections. -/
structure Sound (module : Module) : Prop where
  rows : RowsEncode module
  methods : ∀ method ∈ module.methods, SoundMethod module.callSignature method
  known : DocumentsKnown module
  documents : module.documents.size < sizeLimit
  names : ∀ name ∈ module.documents, (Bytes.ofText name).length < sizeLimit

variable {token : Token} {method : MethodDef} {body : Body} {bodies : Bodies}

theorem checkStackDepth_eq_ok : checkStackDepth module token method = .ok () ↔
    ∀ body, method.body = some body → ∃ required ≤ body.maxStack.toNat,
      body.requiredStack module.callSignature (!method.sig.returnType.isVoid) = .ok required := by
  unfold checkStackDepth
  rcases method.body with - | body
  · simp
  · simp only [Option.some.injEq, forall_eq']
    rw [bind_eq_ok]
    constructor
    · rintro ⟨required, hr, h⟩
      split_ifs at h with hlt
      exact ⟨required, Nat.not_lt.mp hlt, hr⟩
    · rintro ⟨required, hle, hr⟩
      exact ⟨required, hr, if_neg (Nat.not_lt.mpr hle)⟩

theorem codeSize_le_encodedSize (body : Body) : codeSize body.instructions ≤ body.encodedSize := by
  unfold Body.encodedSize
  dsimp only
  have hle := le_alignFour (12 + codeSize body.instructions)
  split_ifs <;> omega

/-- A body in a section that fits is short enough. -/
theorem SectionsFit.codeSize_lt (h : SectionsFit module) (hm : method ∈ module.methods)
    (hb : method.body = some body) : codeSize body.instructions < codeLimit := by
  have hle : bodyWeight method ≤ _ := List.single_le_sum (fun _ _ => Nat.zero_le _) _
    (List.mem_map_of_mem (Array.mem_toList_iff.mpr hm))
  have hsection := h.bodies
  have hweight : bodyWeight method = Bytes.alignFour body.encodedSize := by
    rw [bodyWeight, hb]
    rfl
  have haligned := le_alignFour body.encodedSize
  have hcode := codeSize_le_encodedSize body
  have hlimit : codeLimit = sizeLimit := rfl
  omega

theorem soundMethods_of_checks (hs : checkStackDepths module = .ok ()) (hb : encodeBodies module = .ok bodies) :
    ∀ method ∈ module.methods, SoundMethod module.callSignature method := by
  intro method hm body hbody _
  obtain ⟨row, hr, rfl⟩ := Module.mem_methods_iff.mp hm
  obtain ⟨encoded, he, -⟩ := bind_eq_ok.mp hb
  obtain ⟨value, hv⟩ := exists_mapM_eq_ok.mp ⟨encoded, he⟩ row hr
  obtain ⟨bytes, hbytes, -⟩ := (encodeBody_eq_ok hbody).mp hv
  obtain ⟨required, hle, hrequired⟩ := checkStackDepth_eq_ok.mp (forM_eq_ok.mp hs row hr) body hbody
  obtain ⟨-, depths, hc⟩ := Code.certificate_of_requiredStack hrequired
  exact ⟨⟨_, Body.encode_ok hbytes⟩, depths, hc.mono (fun _ _ => id) hle⟩

theorem checks_of_soundMethods (hm : ∀ method ∈ module.methods, SoundMethod module.callSignature method)
    (hfit : SectionsFit module) :
    checkStackDepths module = .ok () ∧ ∃ bodies, encodeBodies module = .ok bodies := by
  have hall : ∀ row ∈ module.methodRows, ∀ body, row.2.body = some body → (∃ code, body.Fits code) ∧
      ∃ depths, Certificate module.callSignature (!row.2.sig.returnType.isVoid) body body.maxStack.toNat depths := by
    intro row hr body hb
    have hmem := Module.mem_methods_iff.mpr ⟨row, hr, rfl⟩
    exact hm row.2 hmem body hb (hfit.codeSize_lt hmem hb)
  constructor
  · refine forM_eq_ok.mpr fun row hr => checkStackDepth_eq_ok.mpr fun body hb => ?_
    obtain ⟨⟨code, hcode⟩, depths, hc⟩ := hall row hr body hb
    exact hc.requiredStack hcode.targets
  · suffices hencoded : ∃ encoded, module.methodRows.mapM (fun row => encodeBody row.1 row.2) = .ok encoded by
      obtain ⟨encoded, he⟩ := hencoded
      exact ⟨_, bind_eq_ok.mpr ⟨encoded, he, rfl⟩⟩
    refine exists_mapM_eq_ok.mpr fun row hr => ?_
    rcases hb : row.2.body with - | body
    · exact ⟨none, encodeBody_of_none hb⟩
    · obtain ⟨⟨code, hcode⟩, -⟩ := hall row hr body hb
      obtain ⟨encoded, he⟩ := hcode.exists_encode
      exact ⟨_, (encodeBody_eq_ok hb).mpr ⟨encoded, he, rfl⟩⟩

end Bodies

section Write

theorem rowsEncode_of_write {written : Written} (h : write module = .ok written) : RowsEncode module := by
  obtain ⟨⟨⟩, -, h⟩ := bind_eq_ok.mp h
  obtain ⟨bodies, -, h⟩ := bind_eq_ok.mp h
  obtain ⟨image, hi, -⟩ := bind_eq_ok.mp h
  obtain ⟨layout, hl, -⟩ := writeImage_eq_ok.mp hi
  exact rows_encode_iff.mp hl.wrote.2.1.encodes

/-- The symbols of a module whose bodies fit can be counted. -/
theorem Sound.countable (h : Sound module) (hfit : module.RowsFit) (hsections : SectionsFit module)
    (digest : Digest) : Countable (moduleSymbols module digest) where
  documents := h.documents
  names name hn := h.names name (Array.mem_toList_iff.mp hn)
  methods := by
    have hrows := hfit .methodDef
    have hle : (methodList module).length ≤ module.methodRows.length :=
      (List.length_filter_le _ _).trans (List.length_filterMap_le _ _)
    rw [← List.length_map (f := Prod.snd), Module.map_snd_methodRows, Array.length_toList] at hle
    exact Nat.lt_of_le_of_lt hle (Nat.lt_trans hrows (by decide))
  points symbols hs := by
    obtain ⟨row, hr, he⟩ := List.mem_filterMap.mp (List.mem_of_mem_filter hs)
    obtain ⟨body, hb, rfl⟩ := Option.map_eq_some_iff.mp he
    have hlt := hsections.codeSize_lt (Module.mem_methods_iff.mpr ⟨row, hr, rfl⟩) hb
    have hlength := Code.length_le_codeSize body.instructions
    exact Nat.lt_of_le_of_lt ((Code.length_spansFrom_le _ _).trans hlength) hlt

/-- A module whose rows have tokens can be written exactly if it is sound and its sections fit. -/
theorem exists_write_iff (hfit : module.RowsFit) :
    (∃ written, write module = .ok written) ↔ Sound module ∧ SectionsFit module := by
  have hown : module.OwnsTokens := Module.ownsTokens_iff.mpr (hfit .methodDef)
  constructor
  · rintro ⟨written, h⟩
    have hrows := rowsEncode_of_write h
    obtain ⟨⟨⟩, hs, h⟩ := bind_eq_ok.mp h
    obtain ⟨bodies, hb, h⟩ := bind_eq_ok.mp h
    obtain ⟨image, hi, h⟩ := bind_eq_ok.mp h
    obtain ⟨file, hf, -⟩ := bind_eq_ok.mp h
    obtain ⟨layout, hl, -⟩ := writeImage_eq_ok.mp hi
    obtain ⟨hk, hc, rfl⟩ := (symbolFile_eq_ok hown hb).mp hf
    exact ⟨⟨hrows, soundMethods_of_checks hs hb, hk, hc.documents,
      fun name hn => hc.names name (Array.mem_toList_iff.mpr hn)⟩, hl.sectionsFit hb⟩
  · rintro ⟨hsound, hsections⟩
    obtain ⟨hs, bodies, hb⟩ := checks_of_soundMethods hsound.methods hsections
    obtain ⟨layout, hl⟩ := hsections.exists_layout hb (rows_encode_iff.mpr hsound.rows) fun count hc => by
      obtain ⟨table, rfl⟩ := mem_counts_tables hc
      exact Nat.lt_trans (hfit table) (by decide)
    have hcount := hsound.countable hfit hsections (Sha1.digest (layout.image module))
    exact ⟨_, bind_eq_ok.mpr ⟨(), hs, bind_eq_ok.mpr ⟨bodies, hb, bind_eq_ok.mpr ⟨_,
      writeImage_eq_ok.mpr ⟨layout, hl, rfl⟩, bind_eq_ok.mpr ⟨_,
        (symbolFile_eq_ok hown hb).mpr ⟨hsound.known, hcount, rfl⟩, rfl⟩⟩⟩⟩⟩

end Write
end HotPatch.Image
