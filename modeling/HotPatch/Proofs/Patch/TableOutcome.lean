import HotPatch.Proofs.Ensures
import HotPatch.Proofs.Module.PortableReferences
import HotPatch.Proofs.Patch.Frame
import HotPatch.Proofs.Patch.SoundPhases
import HotPatch.Proofs.Patch.TableBody

/-!
# All of the lookup table or nothing

The table is emitted exactly if the lookup method answers a dictionary, each
instantiation has a wrapper, and the references to the instantiations can be
imported and stay apart. Whether they do is a matter of the base module alone,
so neither the order of the records nor what was imported before plays a part.
-/

namespace HotPatch

namespace LookupTable

/-- The patch can grow into a module in which both references are imported as the same one. -/
def Collide (base patch : Module) (a b : Token) : Prop :=
  ∃ grown key, patch.AddsReferences grown ∧ grown.RowsFit ∧ base.ImportsMethod grown a key ∧
    base.ImportsMethod grown b key

/-- What it takes to emit the lookup table. -/
structure Emittable (config : Config) (base : Module) (records : List GenericRecord) (patch : Module) : Prop where
  answers : ∃ container method row type key value, patch.findType? config.wrapperType = some container ∧
    patch.findMethod? container config.lookupMethod = some method ∧ patch.method? method = some row ∧
    row.sig.returnType = .generic (.class type) [key, value]
  wrapped : ∀ inst ∈ records.flatMap (·.instantiations), inst.wrapper.isSome
  importable : ∀ inst ∈ records.flatMap (·.instantiations), ∃ key grown,
    base.importMethod inst.base patch = (.ok key, grown)
  apart : (records.flatMap (·.instantiations)).Pairwise fun a b => ¬ Collide base patch a.base b.base

theorem exists_pending {records : List GenericRecord}
    (h : ∀ inst ∈ records.flatMap (·.instantiations), inst.wrapper.isSome) :
    ∃ entries, pending records = .ok entries := by
  have hlists : ∃ lists, (records.mapM fun record => record.instantiations.zipIdx.mapM fun row => do
      return LookupEntry.mk row.1.base (← requireWrapper record row.2 row.1)) = .ok lists := by
    rw [exists_mapM_eq_ok]
    intro record hr
    rw [exists_mapM_eq_ok]
    intro row hrow
    have hinst : row.1 ∈ records.flatMap (·.instantiations) :=
      List.mem_flatMap.mpr ⟨record, hr, List.fst_mem_of_mem_zipIdx hrow⟩
    obtain ⟨wrapper, hw⟩ := Option.isSome_iff_exists.mp (h row.1 hinst)
    exact ⟨_, bind_eq_ok.mpr ⟨wrapper, requireWrapper_eq_ok.mpr hw, rfl⟩⟩
  obtain ⟨lists, hl⟩ := hlists
  exact ⟨lists.flatten, bind_eq_ok.mpr ⟨lists, hl, rfl⟩⟩

section Keys

variable {base patch before : Module}

/-- Importing the keys succeeds if each can be imported and no two collide. -/
theorem importKeys_succeeds {olds done waiting : List LookupEntry} (hgrown : patch.AddsReferences before)
    (hdone : List.Forall₂ (Imported base before) olds done)
    (himport : ∀ entry ∈ waiting, ∀ module, ∃ key last, base.importMethod entry.base module = (.ok key, last))
    (hapart : (olds ++ waiting).Pairwise fun a b => ¬ Collide base patch a.base b.base)
    (hfit : (importKeys base done waiting before).2.RowsFit) :
    ∃ entries after, importKeys base done waiting before = (.ok entries, after) := by
  induction waiting generalizing olds done before with
  | nil => exact ⟨done, before, rfl⟩
  | cons entry rest ih =>
    obtain ⟨key, middle, hkey⟩ := himport entry List.mem_cons_self before
    obtain ⟨hadds, hagain⟩ := base.importMethod_settles entry.base _ _ _ hkey
    have hunfold : importKeys base done (entry :: rest) before =
        (if done.any (·.base == key) then throw (.duplicateInstantiation entry.base)
          else importKeys base (done ++ [⟨key, entry.wrapper⟩]) rest : Edit _) middle := by
      rw [importKeys, bind_apply, hkey]
    rw [hunfold] at hfit ⊢
    have hkept := hdone.imp fun old new hi => hi.mono hadds.toKeepsReferences
    split_ifs at hfit ⊢ with hseen
    · -- the key was seen before, so the two references collide where the import has stopped
      obtain ⟨new, hnew, heq⟩ := List.any_eq_true.mp hseen
      obtain ⟨old, hold, himported⟩ := exists_of_mem_forall₂ hkept hnew
      have hstands : base.ImportsMethod middle old.base key := by
        rw [← beq_iff_eq.mp heq]
        exact himported.2 middle (.refl middle)
      have hcollide : Collide base patch old.base entry.base :=
        ⟨middle, key, hgrown.trans hadds, hfit, hstands, hagain middle (.refl middle)⟩
      exact absurd hcollide ((List.pairwise_append.mp hapart).2.2 old hold entry List.mem_cons_self)
    · have hnext : Imported base middle entry ⟨key, entry.wrapper⟩ := ⟨rfl, hagain⟩
      refine ih (hgrown.trans hadds) (List.rel_append hkept (.cons hnext .nil))
        (fun other ho => himport other (List.mem_cons_of_mem _ ho)) ?_ hfit
      rwa [List.append_assoc, List.singleton_append]

end Keys

section Outcome

variable {config : Config} {base patch after imported : Module} {records : List GenericRecord}
  {entries waiting : List LookupEntry} {method : Token} {dictionary : TypeSig}

/-- Once the keys are imported, nothing can go wrong any more. -/
theorem emit_of_keys (hm : findLookupMethod config patch = .ok method)
    (hd : dictionaryType config patch method = .ok dictionary) (hp : pending records = .ok waiting)
    (hk : importKeys base [] waiting patch = (.ok entries, imported)) :
    ∃ after, emit config base records patch = (.ok entries, after) := by
  obtain ⟨row, hrow, -⟩ := dictionaryType_eq_ok.mp hd
  obtain ⟨parent, specified, hparent⟩ : ∃ parent specified, imported.addTypeSpec dictionary = (parent, specified) :=
    ⟨_, _, rfl⟩
  obtain ⟨constructor, constructed, hconstructor⟩ : ∃ constructor constructed,
      specified.addMemberRef ⟨parent, MethodDef.constructorName, SupportType.constructorSig⟩ =
        (constructor, constructed) := ⟨_, _, rfl⟩
  obtain ⟨add, referenced, hadd⟩ : ∃ add referenced,
      constructed.addMemberRef ⟨parent, "Add", addSig⟩ = (add, referenced) := ⟨_, _, rfl⟩
  have hkept : referenced.method? method = some row := by
    rw [(references_adds hparent hconstructor hadd).method?_eq, (importKeys_ok hk).1.method?_eq, hrow]
  obtain ⟨after, hafter⟩ : ∃ after, (referenced.modifyMethod? method fun row =>
      { row with body := some (tableBody constructor add entries) }) = some after :=
    Option.isSome_iff_exists.mp (by rw [Module.modifyMethod?, hkept]; rfl)
  refine ⟨after, ?_⟩
  unfold emit
  refine Edit.inspect_bind_eq_ok.mpr ⟨method, hm, ?_⟩
  refine Edit.inspect_bind_eq_ok.mpr ⟨dictionary, hd, ?_⟩
  refine Edit.inspect_bind_eq_ok.mpr ⟨waiting, hp, ?_⟩
  refine run_bind_eq_ok.mpr ⟨entries, imported, hk, ?_⟩
  refine run_bind_eq_ok.mpr ⟨parent, specified, Edit.always_eq_ok.mpr hparent, ?_⟩
  refine run_bind_eq_ok.mpr ⟨constructor, constructed, Edit.always_eq_ok.mpr hconstructor, ?_⟩
  refine run_bind_eq_ok.mpr ⟨add, referenced, Edit.always_eq_ok.mpr hadd, ?_⟩
  refine Edit.inspect_bind_eq_ok.mpr ⟨_, body_eq constructor add entries, ?_⟩
  refine run_bind_eq_ok.mpr ⟨⟨⟩, after, Edit.attempt_eq_ok.mpr ?_, rfl⟩
  rw [hafter]

/-- If the keys cannot be imported, there is nothing else that happens. -/
theorem emit_of_keys_stopped {error : Error} (hm : findLookupMethod config patch = .ok method)
    (hd : dictionaryType config patch method = .ok dictionary) (hp : pending records = .ok waiting)
    (hk : importKeys base [] waiting patch = (.error error, imported)) :
    emit config base records patch = (.error error, imported) := by
  simp only [emit, bind_apply, Edit.inspect, hm, hd, hp, hk]

theorem importKeys_adds (base : Module) (done waiting : List LookupEntry) :
    Module.Adds (importKeys base done waiting) := by
  induction waiting generalizing done with
  | nil => exact Module.adds_closed.pure done
  | cons entry rest ih =>
    rw [importKeys]
    refine Module.adds_closed.bind (Module.adds_closed.importMethodWithin base _ entry.base) fun key => ?_
    split_ifs
    · exact Module.adds_closed.fail _
    · exact ih _

/-- Wherever the emission stops, it has added references at most. -/
theorem emit_ensures (config : Config) (base : Module) (records : List GenericRecord) (patch : Module) :
    Ensures (emit config base records) patch (fun _ _ => True) fun _ after => patch.AddsReferences after := by
  have hadds : ∀ {α : Type} {edit : Edit α} {before : Module}, Module.Adds edit → patch.AddsReferences before →
      Ensures edit before (fun _ after => patch.AddsReferences after) fun _ after => patch.AddsReferences after := by
    intro α edit before he h
    have hafter := h.trans (he before)
    unfold Ensures
    split <;> rename_i hr <;> rw [hr] at hafter <;> exact hafter
  have hinspect : ∀ {α : Type} (look : Module → Result α), Module.Adds (Edit.inspect look) :=
    fun look module => .refl module
  have hclosed := Module.adds_closed
  refine (hadds (hinspect _) (.refl patch)).bind fun method _ h => ?_
  refine (hadds (hinspect _) h).bind fun dictionary _ h => ?_
  refine (hadds (hinspect _) h).bind fun waiting _ h => ?_
  refine (hadds (importKeys_adds base [] waiting) h).bind fun entries _ h => ?_
  refine (hadds (hclosed.addTypeSpec _) h).bind fun parent _ h => ?_
  refine (hadds (hclosed.addMemberRef _) h).bind fun constructor _ h => ?_
  refine (hadds (hclosed.addMemberRef _) h).bind fun add _ h => ?_
  refine (hadds (hinspect _) h).bind fun body before h => ?_
  -- the replacement either happens or leaves the module alone
  have hreplace : ∀ change : Module → Result (Unit × Module),
      Ensures (Edit.attempt change) before (fun _ _ => True) fun _ after => patch.AddsReferences after := by
    intro change
    unfold Ensures Edit.attempt
    rcases change before with error | ⟨value, after⟩
    · exact h
    · trivial
  exact (hreplace _).bind fun _ _ _ => .pure trivial

/-- What was achieved by an emission. -/
structure Emitted (config : Config) (base : Module) (records : List GenericRecord) (patch : Module)
    (entries : List LookupEntry) (after : Module) : Prop where
  imported : List.Forall₂
    (fun inst entry => inst.wrapper = some entry.wrapper ∧ base.ImportsMethod after inst.base entry.base)
    (records.flatMap (·.instantiations)) entries
  distinct : (entries.map (·.base)).Nodup
  readBack : read config after = .ok entries
  attributes : after.attributes = patch.attributes
  body : ∃ method row body, findLookupMethod config patch = .ok method ∧ patch.method? method = some row ∧
    after.method? method = some { row with body := some body } ∧
    body.instructions.length = 4 * entries.length + 2 ∧ body.maxStack = (if entries = [] then 1 else 4) ∧
    body.requiredStack after.callSignature (!row.sig.returnType.isVoid) = .ok body.maxStack.toNat ∧
    Module.Extension none [] (· = method) patch after

theorem length_tableCode (constructor add : Token) (entries : List LookupEntry) :
    (tableCode constructor add entries).length = 4 * entries.length + 2 := by
  simp [tableCode, entryCode, List.length_flatMap, Nat.mul_comm]

theorem Emission.emitted (emission : Emission config base records entries patch after) (hw : patch.WellFormed)
    (hfit : after.RowsFit) : Emitted config base records patch entries after := by
  have hextension := emission.extension none
  obtain ⟨row, hrow, hreplaced⟩ := emission.method_body
  have hbody : tableBody emission.constructor emission.add entries = emission.body :=
    Except.ok.inj ((body_eq _ _ _).symm.trans emission.assembled)
  rw [← hbody] at hreplaced
  obtain ⟨hdistinct, himported⟩ := emission.entries_ok
  constructor
  case imported => exact himported.imp fun inst entry h => ⟨h.1, h.2 after (.refl after)⟩
  case distinct => exact hdistinct
  case readBack =>
    have hfound := hextension.findLookupMethod_mono hw (hextension.grows.rowsFit hfit) emission.found
    refine bind_eq_ok.mpr ⟨_, hfound, ?_⟩
    rw [hreplaced, Option.bind_some]
    dsimp only
    rw [tableBody, readBody_tableCode]
    rfl
  case attributes => exact emission.attributes_eq
  case body =>
    obtain ⟨row', type, key, value, hrow', -, hreturn⟩ := emission.answers
    cases hrow.symm.trans hrow'
    have hset := Module.setBody_extension none emission.replaced
    obtain ⟨hconstructor, hadd⟩ := emission.callSignatures (hset.grows.rowsFit hfit)
    refine ⟨_, row, _, emission.found, hrow, hreplaced, length_tableCode _ _ _, ?_, ?_, hextension⟩
    · rw [tableBody, tableDepth]
      split_ifs <;> rfl
    · have hvoid : row.sig.returnType.isVoid = false := by
        rw [hreturn]
        rfl
      rw [hvoid]
      exact requiredStack_tableBody (hset.callSignature hconstructor) (hset.callSignature hadd)

/-- What was emitted could be emitted. -/
theorem Emission.emittable (emission : Emission config base records entries patch after) :
    Emittable config base records patch := by
  obtain ⟨container, hcontainer, hmethod⟩ := findLookupMethod_eq_ok.mp emission.found
  obtain ⟨row, type, key, value, hrow, -, hreturn⟩ := emission.answers
  obtain ⟨hdistinct, himported⟩ := emission.entries_ok
  have hentry : ∀ inst ∈ records.flatMap (·.instantiations), ∃ entry : LookupEntry,
      inst.wrapper = some entry.wrapper ∧ base.ImportsMethod after inst.base entry.base := by
    intro inst hi
    obtain ⟨entry, -, hwrapper, hkey⟩ := exists_of_mem_forall₂ himported.flip hi
    exact ⟨entry, hwrapper, hkey after (.refl after)⟩
  constructor
  case answers => exact ⟨container, _, row, type, key, value, hcontainer, hmethod, hrow, hreturn⟩
  case wrapped =>
    intro inst hi
    obtain ⟨entry, hwrapper, -⟩ := hentry inst hi
    exact Option.isSome_of_eq_some hwrapper
  case importable =>
    intro inst hi
    obtain ⟨entry, -, hkey⟩ := hentry inst hi
    exact Module.importMethod_anywhere hkey patch
  case apart =>
    refine pairwise_of_forall₂ ?_ himported (List.pairwise_map.mp hdistinct)
    rintro a b x y ⟨-, hx⟩ ⟨-, hy⟩ hne ⟨grown, key, -, hfit, hkey, hkey'⟩
    -- references that become the same in one module become the same in every module
    have hsame := hkey.collapse hfit hkey'
    have hx := hx after (.refl after)
    rw [hsame, hy after (.refl after)] at hx
    exact hne (Except.ok.inj (congrArg Prod.fst hx)).symm

/-- What can be emitted is emitted. -/
theorem Emittable.emits (h : Emittable config base records patch) (hfit : (emit config base records patch).2.RowsFit) :
    ∃ entries after, emit config base records patch = (.ok entries, after) := by
  obtain ⟨container, method, row, type, key, value, hcontainer, hmethod, hrow, hreturn⟩ := h.answers
  have hm := findLookupMethod_eq_ok.mpr ⟨container, hcontainer, hmethod⟩
  have hd : dictionaryType config patch method = .ok _ :=
    dictionaryType_eq_ok.mpr ⟨row, hrow, hreturn, isDictionary_iff.mpr ⟨type, key, value, rfl⟩⟩
  obtain ⟨waiting, hp⟩ := exists_pending h.wrapped
  have hwaiting := pending_ok hp
  rcases hk : importKeys base [] waiting patch with ⟨error | entries, imported⟩
  · rw [emit_of_keys_stopped hm hd hp hk] at hfit
    have himport : ∀ entry ∈ waiting, ∀ module, ∃ key last, base.importMethod entry.base module = (.ok key, last) := by
      intro entry he module
      obtain ⟨inst, hi, hbase, -⟩ := exists_of_mem_forall₂ hwaiting he
      obtain ⟨key, grown, hkey⟩ := h.importable inst hi
      rw [hbase]
      exact Module.importMethod_anywhere hkey module
    have hapart : waiting.Pairwise fun a b => ¬ Collide base patch a.base b.base := by
      refine pairwise_of_forall₂ ?_ hwaiting.flip h.apart
      rintro a b x y ⟨ha, -⟩ ⟨hb, -⟩ hxy
      rwa [ha, hb]
    obtain ⟨entries, last, hdone⟩ := importKeys_succeeds (.refl patch) .nil himport hapart (by rwa [hk])
    rw [hk] at hdone
    cases hdone
  · exact ⟨entries, emit_of_keys hm hd hp hk⟩

end Outcome

/-- The lookup table is emitted completely or not at all. It is emitted exactly if the lookup method is there
and answers a dictionary, each instantiation has a wrapper, and the references to the instantiations can be
imported and stay apart. -/
theorem emit_all_or_nothing (config : Config) (base : Module) (records : List GenericRecord) {patch : Module}
    (hbuilt : patch.Built) (hfit : (emit config base records patch).2.RowsFit) :
    ((∃ entries after, emit config base records patch = (.ok entries, after)) ↔
      Emittable config base records patch) ∧
    (∀ entries after, emit config base records patch = (.ok entries, after) →
      Emitted config base records patch entries after) ∧
    ∀ error after, emit config base records patch = (.error error, after) →
      patch.AddsReferences after ∧ ∀ token, after.method? token = patch.method? token := by
  refine ⟨⟨?_, fun h => ?_⟩, fun entries after h => ?_, fun error after h => ?_⟩
  · rintro ⟨entries, after, h⟩
    obtain ⟨emission⟩ := emit_ok h
    exact emission.emittable
  · exact h.emits hfit
  · rw [h] at hfit
    obtain ⟨emission⟩ := emit_ok h
    exact emission.emitted (hbuilt.wellFormed ((emission.extension none).grows.rowsFit hfit)) hfit
  · have hadds := emit_ensures config base records patch
    rw [Ensures, h] at hadds
    exact ⟨hadds, hadds.method?_eq⟩

end LookupTable

/-!
Two instantiations of the sample's generic method, and the first of them once
more, by way of a reference.
-/

namespace Sample

def aliased : Module :=
  let sig : MethodSig := { makeMethod.sig with genericCount := 1 }
  ((module.addMemberRef ⟨box, "Make", sig⟩).2.addMethodSpec ⟨.ofRow .memberRef 1, [.primitive .i4]⟩).2

/-- Records that give the same wrapper to all rows. -/
def wrapped (rows : List Nat) : List GenericRecord :=
  [{ method := make, instantiations := rows.map fun row => { base := .ofRow .methodSpec row, wrapper := some make } }]

end Sample

open Sample in
/-- Different instantiations get their entries; the same one cannot have two, whatever it is reached by. -/
theorem LookupTable.emit_all_or_nothing_aliased :
    (∃ first second after, emit config aliased (wrapped [1, 2]) module = (.ok [first, second], after) ∧
      Emitted config aliased (wrapped [1, 2]) module [first, second] after) ∧
      ¬ Emittable config aliased (wrapped [1, 4]) module := by
  have hfit : ∀ rows ∈ [[1, 2], [1, 4]], (emit config aliased (wrapped rows) module).2.RowsFit := by
    intro rows hrows table
    simp only [List.mem_cons, List.not_mem_nil, or_false] at hrows
    rcases hrows with rfl | rfl <;> cases table <;> decide +kernel
  constructor
  · obtain ⟨-, hemitted, -⟩ :=
      emit_all_or_nothing config aliased (wrapped [1, 2]) module_built (hfit _ (by decide))
    have hemit : emit config aliased (wrapped [1, 2]) module =
        (.ok [⟨.ofRow .methodSpec 4, make⟩, ⟨.ofRow .methodSpec 5, make⟩], _) := eq_of_toOption (by decide +kernel)
    exact ⟨_, _, _, hemit, hemitted _ _ hemit⟩
  · obtain ⟨hiff, -, -⟩ :=
      emit_all_or_nothing config aliased (wrapped [1, 4]) module_built (hfit _ (by decide))
    rw [← hiff]
    rintro ⟨entries, after, h⟩
    have hnone : (emit config aliased (wrapped [1, 4]) module).1.toOption = none := by decide +kernel
    rw [h] at hnone
    cases hnone

end HotPatch
