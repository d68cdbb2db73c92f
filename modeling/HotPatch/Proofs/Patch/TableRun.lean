import HotPatch.Patch.LookupTable
import HotPatch.Proofs.Code.Assembly
import HotPatch.Proofs.Module.StableImport
import HotPatch.Proofs.Module.StableNames

/-!
# Emission of the lookup table

The keys of the table are imports that settle, and no two of them are the same.
The body that is emitted reads back as the entries that it was made of.
-/

namespace HotPatch.LookupTable

section Code

variable {constructor add : Token} {entries : List LookupEntry}

/-- The instructions that add one entry. -/
def entryCode (add : Token) (entry : LookupEntry) : List Code.Instruction :=
  [{ opcode := .dup }, .withToken .ldtoken entry.base, .withToken .ldtoken entry.wrapper,
    .withToken .callvirt add]

/-- The instructions of the lookup method. -/
def tableCode (constructor add : Token) (entries : List LookupEntry) : List Code.Instruction :=
  .withToken .newobj constructor :: (entries.flatMap (entryCode add) ++ [{ opcode := .ret }])

theorem readEntries_entryCode (add : Token) (entries : List LookupEntry) :
    readEntries (entries.flatMap (entryCode add)) = some entries := by
  induction entries with
  | nil => rfl
  | cons entry entries ih =>
    rw [List.flatMap_cons, entryCode]
    change readEntries (_ :: _ :: _ :: _ :: entries.flatMap (entryCode add)) = _
    rw [readEntries, ih]
    rfl

/-- The table can be read back from its instructions. -/
theorem readBody_tableCode (constructor add : Token) (entries : List LookupEntry) :
    readBody (tableCode constructor add entries) = some entries := by
  rw [tableCode, readBody, List.getLast?_append]
  simp only [List.getLast?_singleton, Option.some_or]
  rw [if_pos ⟨rfl, trivial⟩, List.dropLast_concat, readEntries_entryCode]

theorem emitEntry_ok {asm asm' : Code.Assembler} {entry : LookupEntry}
    (h : emitEntry add asm entry = .ok asm') :
    asm'.instructions.toList = asm.instructions.toList ++ entryCode add entry := by
  obtain ⟨first, hf, h⟩ := bind_eq_ok.mp h
  obtain ⟨second, hs, h⟩ := bind_eq_ok.mp h
  obtain ⟨third, ht, h⟩ := bind_eq_ok.mp h
  rw [(Code.Assembler.emit_ok h).instructions, (Code.Assembler.emit_ok ht).instructions,
    (Code.Assembler.emit_ok hs).instructions, (Code.Assembler.emit_ok hf).instructions]
  simp [entryCode]

theorem foldlM_emitEntry_ok {asm asm' : Code.Assembler}
    (h : entries.foldlM (emitEntry add) asm = .ok asm') :
    asm'.instructions.toList = asm.instructions.toList ++ entries.flatMap (entryCode add) := by
  induction entries generalizing asm with
  | nil =>
    cases h
    simp
  | cons entry entries ih =>
    rw [List.foldlM_cons] at h
    obtain ⟨first, hf, h⟩ := bind_eq_ok.mp h
    rw [ih h, emitEntry_ok hf]
    simp

/-- The body that is emitted. -/
theorem body_ok {body : Body} (h : LookupTable.body constructor add entries = .ok body) :
    body = { instructions := tableCode constructor add entries, maxStack := body.maxStack } := by
  obtain ⟨created, hc, h⟩ := bind_eq_ok.mp h
  obtain ⟨filled, hf, h⟩ := bind_eq_ok.mp h
  obtain ⟨returned, hr, h⟩ := bind_eq_ok.mp h
  obtain ⟨⟨instructions, maxStack⟩, he, h⟩ := bind_eq_ok.mp h
  cases h
  have hi := (Code.Assembler.finish_ok he).1
  have hcode : instructions = tableCode constructor add entries := by
    rw [hi, (Code.Assembler.ret_ok hr).1.instructions, foldlM_emitEntry_ok hf,
      (Code.Assembler.emit_ok hc).instructions]
    simp [tableCode]
  rw [hcode]

end Code

section Keys

variable {base before after : Module}

/-- An entry whose key is imported, in this module and in all that it grows into. -/
def Imported (base after : Module) (entry new : LookupEntry) : Prop :=
  new.wrapper = entry.wrapper ∧
    ∀ later, after.KeepsReferences later → base.importMethod entry.base later = (.ok new.base, later)

theorem Imported.mono {entry new : LookupEntry} (h : Imported base before entry new)
    (hk : before.KeepsReferences after) : Imported base after entry new :=
  ⟨h.1, fun later hl => h.2 later (hk.trans hl)⟩

/-- The keys are imported in turn, and differ from one another. -/
theorem importKeys_ok {done pending entries : List LookupEntry}
    (h : importKeys base done pending before = (.ok entries, after)) :
    before.AddsReferences after ∧
      ((done.map (·.base)).Nodup → (entries.map (·.base)).Nodup) ∧
      ∃ added, entries = done ++ added ∧ List.Forall₂ (Imported base after) pending added := by
  induction pending generalizing done before with
  | nil =>
    obtain ⟨rfl, rfl⟩ := run_pure_eq_ok.mp h
    exact ⟨.refl _, id, [], by simp, .nil⟩
  | cons entry rest ih =>
    rw [importKeys] at h
    obtain ⟨key, middle, hk, h⟩ := run_bind_eq_ok.mp h
    obtain ⟨hadds, hagain⟩ := base.importMethod_settles entry.base _ _ _ hk
    split_ifs at h with hd
    · exact absurd h Edit.throw_ne_ok
    · obtain ⟨hadds', hnodup, added, rfl, hall⟩ := ih h
      have hnew : ∀ old ∈ done, old.base ≠ key := by simpa using hd
      refine ⟨hadds.trans hadds', fun hn => hnodup ?_, ⟨key, entry.wrapper⟩ :: added, by simp, ?_⟩
      · rw [List.map_append, List.nodup_append]
        refine ⟨hn, by simp, fun a ha b hb => ?_⟩
        obtain ⟨old, ho, rfl⟩ := List.mem_map.mp ha
        obtain rfl : b = key := by simpa using hb
        exact hnew old ho
      · exact .cons ⟨rfl, fun later hl => hagain later (hadds'.toKeepsReferences.trans hl)⟩ hall

/-- The entry that an instantiation with a wrapper gives. -/
def Pending (inst : Instantiation) (entry : LookupEntry) : Prop :=
  entry.base = inst.base ∧ inst.wrapper = some entry.wrapper

theorem requireWrapper_eq_ok {record : GenericRecord} {position : Nat} {inst : Instantiation}
    {wrapper : Token} : requireWrapper record position inst = .ok wrapper ↔ inst.wrapper = some wrapper := by
  unfold requireWrapper
  rcases inst.wrapper with - | other
  · constructor <;> intro h <;> cases h
  · simp

/-- The entries in the order of the records. -/
theorem pending_ok {records : List GenericRecord} {entries : List LookupEntry}
    (h : pending records = .ok entries) :
    List.Forall₂ Pending (records.flatMap (·.instantiations)) entries := by
  obtain ⟨lists, hl, hflat⟩ := bind_eq_ok.mp h
  cases hflat
  clear h
  rw [mapM_eq_ok] at hl
  have hrecord : ∀ {record : GenericRecord} {insts : List Instantiation} {position : Nat}
      {list : List LookupEntry}, (insts.zipIdx position).mapM (fun row => do
        return LookupEntry.mk row.1.base (← requireWrapper record row.2 row.1)) = .ok list →
      List.Forall₂ Pending insts list := by
    intro record insts
    induction insts with
    | nil =>
      intro position list h
      cases h
      exact .nil
    | cons inst insts ih =>
      intro position list h
      rw [List.zipIdx_cons, List.mapM_cons] at h
      obtain ⟨entry, he, h⟩ := bind_eq_ok.mp h
      obtain ⟨wrapper, hw, he⟩ := bind_eq_ok.mp he
      obtain ⟨rest, hr, h⟩ := bind_eq_ok.mp h
      cases he
      cases h
      exact .cons ⟨rfl, requireWrapper_eq_ok.mp hw⟩ (ih hr)
  induction hl with
  | nil => exact .nil
  | cons hfirst _ ih =>
    rw [List.flatMap_cons, List.flatten_cons]
    exact List.rel_append (hrecord hfirst) ih

end Keys

section Dictionary

variable {config : Config} {module : Module} {method : Token} {dictionary : TypeSig}

theorem findLookupMethod_eq_ok : findLookupMethod config module = .ok method ↔
    ∃ container, module.findType? config.wrapperType = some container ∧
      module.findMethod? container config.lookupMethod = some method := by
  rw [findLookupMethod, bind_eq_ok]
  refine exists_congr fun container => and_congr ?_ ?_
  · unfold findContainer
    rcases module.findType? config.wrapperType with - | found <;> constructor <;> rintro ⟨⟩ <;> rfl
  · rcases module.findMethod? container config.lookupMethod with - | found <;> constructor <;> rintro ⟨⟩ <;> rfl

theorem isDictionary_iff : isDictionary dictionary = true ↔
    ∃ type key value, dictionary = .generic (.class type) [key, value] := by
  constructor
  · intro h
    unfold isDictionary at h
    split at h
    · obtain ⟨key, value, rfl⟩ := List.length_eq_two.mp (beq_iff_eq.mp h)
      exact ⟨_, key, value, rfl⟩
    · cases h
  · rintro ⟨type, key, value, rfl⟩
    rfl

theorem dictionaryType_eq_ok : dictionaryType config module method = .ok dictionary ↔
    ∃ row, module.method? method = some row ∧ row.sig.returnType = dictionary ∧ isDictionary dictionary := by
  rw [dictionaryType, bind_eq_ok]
  refine exists_congr fun row => and_congr require_eq_ok ?_
  constructor
  · intro h
    split_ifs at h with hdictionary
    obtain rfl := Except.ok.inj h
    exact ⟨rfl, hdictionary⟩
  · rintro ⟨rfl, hdictionary⟩
    rw [if_pos hdictionary]
    rfl

end Dictionary

/-- The steps of a successful emission. -/
structure Emission (config : Config) (base : Module) (records : List GenericRecord)
    (entries : List LookupEntry) (before after : Module) where
  method : Token
  dictionary : TypeSig
  pending : List LookupEntry
  parent : Token
  constructor : Token
  add : Token
  body : Body
  imported : Module
  specified : Module
  constructed : Module
  referenced : Module
  found : findLookupMethod config before = .ok method
  typed : dictionaryType config before method = .ok dictionary
  collected : LookupTable.pending records = .ok pending
  keyed : importKeys base [] pending before = (.ok entries, imported)
  parented : imported.addTypeSpec dictionary = (parent, specified)
  creates : specified.addMemberRef ⟨parent, MethodDef.constructorName, SupportType.constructorSig⟩ =
    (constructor, constructed)
  adds : constructed.addMemberRef ⟨parent, "Add", addSig⟩ = (add, referenced)
  assembled : LookupTable.body constructor add entries = .ok body
  replaced : (referenced.modifyMethod? method fun row => { row with body := some body }) = some after

section Emission

variable {config : Config} {base before after : Module} {records : List GenericRecord}
  {entries : List LookupEntry}

/-- The references to the dictionary and its methods. -/
theorem references_adds {imported specified constructed referenced : Module} {dictionary : TypeSig}
    {parent constructor add : Token} (hspec : imported.addTypeSpec dictionary = (parent, specified))
    (hconstructor : specified.addMemberRef ⟨parent, MethodDef.constructorName, SupportType.constructorSig⟩ =
      (constructor, constructed))
    (hadd : constructed.addMemberRef ⟨parent, "Add", addSig⟩ = (add, referenced)) :
    imported.AddsReferences referenced := by
  have hspecified := imported.addTypeSpec_adds dictionary
  rw [hspec] at hspecified
  have hconstructed := specified.addMemberRef_adds ⟨parent, MethodDef.constructorName, SupportType.constructorSig⟩
  rw [hconstructor] at hconstructed
  have hreferenced := constructed.addMemberRef_adds ⟨parent, "Add", addSig⟩
  rw [hadd] at hreferenced
  exact (hspecified.trans hconstructed).trans hreferenced

theorem emit_ok (h : emit config base records before = (.ok entries, after)) :
    Nonempty (Emission config base records entries before after) := by
  unfold emit at h
  obtain ⟨method, hm, h⟩ := Edit.inspect_bind_eq_ok.mp h
  obtain ⟨dictionary, hd, h⟩ := Edit.inspect_bind_eq_ok.mp h
  obtain ⟨pending, hp, h⟩ := Edit.inspect_bind_eq_ok.mp h
  obtain ⟨keys, imported, hk, h⟩ := run_bind_eq_ok.mp h
  obtain ⟨parent, specified, ht, h⟩ := run_bind_eq_ok.mp h
  obtain ⟨constructor, constructed, hc, h⟩ := run_bind_eq_ok.mp h
  obtain ⟨add, referenced, ha, h⟩ := run_bind_eq_ok.mp h
  obtain ⟨body, hb, h⟩ := Edit.inspect_bind_eq_ok.mp h
  obtain ⟨⟨⟩, last, hs, h⟩ := run_bind_eq_ok.mp h
  obtain ⟨rfl, rfl⟩ := run_pure_eq_ok.mp h
  have hreplaced : (referenced.modifyMethod? method fun row => { row with body := some body }) =
      some last := by
    rw [Edit.attempt_eq_ok] at hs
    split at hs
    · rename_i next hn
      cases hs
      exact hn
    · cases hs
  exact ⟨{
    method, dictionary, pending, parent, constructor, add, body
    imported, specified, constructed, referenced
    found := hm
    typed := hd
    collected := hp
    keyed := hk
    parented := Edit.always_eq_ok.mp ht
    creates := Edit.always_eq_ok.mp hc
    adds := Edit.always_eq_ok.mp ha
    assembled := hb
    replaced := hreplaced }⟩

namespace Emission

variable (emission : Emission config base records entries before after)

/-- The dictionary and its methods are referenced behind the keys. -/
theorem imported_adds : emission.imported.AddsReferences emission.referenced :=
  references_adds emission.parented emission.creates emission.adds

theorem adds_references : before.AddsReferences emission.referenced :=
  (importKeys_ok emission.keyed).1.trans emission.imported_adds

/-- Emission adds references and replaces the body of the lookup method. -/
theorem extension (container : Option Token) :
    Module.Extension container [] (· = emission.method) before after :=
  ((emission.adds_references.extension container).trans
    (Module.setBody_extension container emission.replaced)).mono fun _ hp => hp.elim False.elim id

/-- The lookup method answers a dictionary. -/
theorem answers : ∃ row type key value, before.method? emission.method = some row ∧
    row.sig.returnType = emission.dictionary ∧ row.sig.returnType = .generic (.class type) [key, value] := by
  obtain ⟨row, hrow, hreturn, hdictionary⟩ := dictionaryType_eq_ok.mp emission.typed
  obtain ⟨type, key, value, hshape⟩ := isDictionary_iff.mp hdictionary
  exact ⟨row, type, key, value, hrow, hreturn, hreturn.trans hshape⟩

include emission in
theorem attributes_eq : after.attributes = before.attributes := by
  rw [(Module.modifyMethod?_spec emission.replaced).2.1, ← emission.adds_references.attributes_eq]

/-- The lookup method has the body that was assembled. -/
theorem method_body : ∃ row, before.method? emission.method = some row ∧
    after.method? emission.method = some { row with body := some emission.body } := by
  obtain ⟨hs, -, -, hmethod⟩ := Module.modifyMethod?_spec emission.replaced
  obtain ⟨row, hr⟩ := Option.isSome_iff_exists.mp hs
  refine ⟨row, ?_, ?_⟩
  · rw [← emission.adds_references.method?_eq, hr]
  · rw [hmethod, hr, Option.map_some, if_pos rfl]

include emission in
/-- There is one entry for each instantiation: its imported reference with its wrapper. -/
theorem entries_ok : (entries.map (·.base)).Nodup ∧
    List.Forall₂ (fun inst entry => inst.wrapper = some entry.wrapper ∧
        ∀ later, after.KeepsReferences later → base.importMethod inst.base later = (.ok entry.base, later))
      (records.flatMap (·.instantiations)) entries := by
  obtain ⟨-, hnodup, added, hentries, hkeys⟩ := importKeys_ok emission.keyed
  rw [List.nil_append] at hentries
  subst hentries
  refine ⟨hnodup (by simp), ?_⟩
  have hkept := emission.imported_adds.toKeepsReferences.trans
    (Module.setBody_extension none emission.replaced).toKeepsReferences
  refine forall₂_trans (fun inst entry new hp hi => ?_) (pending_ok emission.collected) hkeys
  obtain ⟨hbase, hwrapper⟩ := hp
  obtain ⟨hnew, himported⟩ := hi.mono hkept
  exact ⟨hnew ▸ hwrapper, hbase ▸ himported⟩

end Emission
end Emission
end HotPatch.LookupTable
