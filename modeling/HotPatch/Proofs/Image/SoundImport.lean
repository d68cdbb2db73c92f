import HotPatch.Proofs.Image.SoundEdits

/-!
# Imports keep modules sound

What can be encoded in one module can be encoded as it is imported by another:
an imported type is named by a reference or a specification, and an imported
signature has the shape that it had before. So every row that an import adds can
be encoded as well.
-/

namespace HotPatch

open Image

/-- The edit keeps sound modules sound, and its answer has the property. -/
def Edit.KeepsSound {α : Type} (edit : Edit α) (good : α → Prop) : Prop :=
  ∀ module value next, Sound module → edit module = (.ok value, next) → Sound next ∧ good value

namespace Edit.KeepsSound

variable {α β : Type} {edit : Edit α} {good : α → Prop} {fine : β → Prop}

theorem pure {value : α} (hv : good value) : KeepsSound (Pure.pure value : Edit α) good := by
  intro module value' next hs h
  obtain ⟨rfl, rfl⟩ := run_pure_eq_ok.mp h
  exact ⟨hs, hv⟩

theorem fail (error : Error) : KeepsSound (throw error : Edit α) good := fun _ _ _ _ h =>
  absurd h Edit.throw_ne_ok

theorem inspect {look : Module → Result α}
    (hl : ∀ module value, Sound module → look module = .ok value → good value) :
    KeepsSound (Edit.inspect look) good := by
  intro module value next hs h
  obtain ⟨hr, rfl⟩ := Edit.inspect_eq_ok.mp h
  exact ⟨hs, hl module value hs hr⟩

theorem bind {next : α → Edit β} (he : KeepsSound edit good)
    (hn : ∀ value, good value → KeepsSound (next value) fine) : KeepsSound (edit >>= next) fine := by
  intro module value last hs h
  obtain ⟨first, middle, hfirst, h⟩ := run_bind_eq_ok.mp h
  obtain ⟨hmiddle, hgood⟩ := he module first middle hs hfirst
  exact hn first hgood middle value last hmiddle h

theorem mono {better : α → Prop} (he : KeepsSound edit good) (hg : ∀ value, good value → better value) :
    KeepsSound edit better := by
  intro module value next hs h
  obtain ⟨hnext, hgood⟩ := he module value next hs h
  exact ⟨hnext, hg value hgood⟩

theorem map {change : α → β} (he : KeepsSound edit good) (hc : ∀ value, good value → fine (change value)) :
    KeepsSound (change <$> edit) fine :=
  he.bind fun value hv => pure (hc value hv)

theorem mapM {items : List β} {step : β → Edit α} (hs : ∀ item ∈ items, KeepsSound (step item) good) :
    KeepsSound (items.mapM step) fun values => values.length = items.length ∧ ∀ value ∈ values, good value := by
  induction items with
  | nil => exact pure ⟨rfl, by simp⟩
  | cons item items ih =>
    rw [List.mapM_cons]
    refine (hs item (by simp)).bind fun value hv => (ih fun other ho => hs other (by simp [ho])).bind
      fun rest ⟨hlength, hrest⟩ => pure ⟨by rw [List.length_cons, hlength, List.length_cons], ?_⟩
    exact List.forall_mem_cons.mpr ⟨hv, hrest⟩

theorem forM {items : List β} {step : β → Edit PUnit}
    (hs : ∀ item ∈ items, KeepsSound (step item) fun _ => True) : KeepsSound (items.forM step) fun _ => True := by
  induction items with
  | nil => exact pure trivial
  | cons item items ih =>
    rw [List.forM_eq_forM, List.forM_cons]
    exact (hs item (by simp)).bind fun _ _ => ih fun other ho => hs other (by simp [ho])

theorem addTypeRef (row : TypeRef) : KeepsSound (Edit.always (·.addTypeRef row)) Token.NamesType := by
  intro module token next hs h
  cases Edit.always_eq_ok.mp h
  exact ⟨hs.addsReferences (module.addTypeRef_adds row) (hs.rows.addTypeRef row),
    Token.namesType_of_table? (.inr (.inl (Token.table?_ofRow _ _)))⟩

theorem addTypeSpec {sig : TypeSig} (he : sig.Encodes) :
    KeepsSound (Edit.always (·.addTypeSpec sig)) Token.NamesType := by
  intro module token next hs h
  cases Edit.always_eq_ok.mp h
  exact ⟨hs.addsReferences (module.addTypeSpec_adds sig) (hs.rows.addTypeSpec he),
    Token.namesType_of_table? (.inr (.inr (Token.table?_ofRow _ _)))⟩

theorem addMemberRef {row : MemberRef} (he : row.sig.Encodes) :
    KeepsSound (Edit.always (·.addMemberRef row)) fun _ => True := by
  intro module token next hs h
  cases Edit.always_eq_ok.mp h
  exact ⟨hs.addsReferences (module.addMemberRef_adds row) (hs.rows.addMemberRef he), trivial⟩

theorem addMethodSpec {row : MethodSpec} (he : row.args ≠ [] ∧ ∀ arg ∈ row.args, arg.Encodes) :
    KeepsSound (Edit.always (·.addMethodSpec row)) fun _ => True := by
  intro module token next hs h
  cases Edit.always_eq_ok.mp h
  exact ⟨hs.addsReferences (module.addMethodSpec_adds row) (hs.rows.addMethodSpec he), trivial⟩

theorem addAttribute {row : CustomAttribute} (hv : ∃ bytes, row.value.encode = .ok bytes) :
    KeepsSound (Edit.attempt (·.addAttribute row)) fun _ => True := by
  intro module token next hs h
  have ha := Edit.attempt_eq_ok.mp h
  have hsame := (Module.addAttribute_spec ha).2.2
  have he := Module.Extension.of_attributes none (b := next) (by rw [hsame]) (by
    rw [hsame]
    exact toList_prefix_push _ _)
  exact ⟨hs.extension he (hs.rows.addAttribute hv ha) fun method hm => .inl (by rwa [hsame] at hm), trivial⟩

end Edit.KeepsSound

namespace Module

open Edit (KeepsSound)

variable {source : Module} (hsource : RowsEncode source)

include hsource

section Step

variable {levels : Nat} (iht : ∀ token, KeepsSound (source.importTypeWithin levels token) Token.NamesType)

variable (ihs : ∀ sig, sig.Encodes → KeepsSound (source.importSigWithin levels sig) fun imported =>
  imported.Encodes ∧ imported.isNamed = sig.isNamed)

include iht ihs in
/-- A type definition turns into a reference. -/
theorem importType_step (token : Token) :
    KeepsSound (source.importTypeWithin (levels + 1) token) Token.NamesType := by
  have hrow : ∀ {α : Type} (row? : Option α), KeepsSound (Edit.inspect fun _ => require row? token) fun _ => True :=
    fun row? => .inspect fun _ _ _ _ => trivial
  have hnested : ∀ enclosing name, KeepsSound (do
      let scope ← Scope.nested <$> source.importTypeWithin levels enclosing
      Edit.always (·.addTypeRef ⟨scope, name⟩)) Token.NamesType := by
    intro enclosing name
    have hscope : KeepsSound (Scope.nested <$> source.importTypeWithin levels enclosing) fun _ => True :=
      (iht enclosing).map fun _ _ => trivial
    exact hscope.bind fun scope _ => .addTypeRef _
  have hassembly : ∀ assembly name, KeepsSound (do
      let scope ← pure (Scope.assembly assembly)
      Edit.always (·.addTypeRef ⟨scope, name⟩)) Token.NamesType := fun assembly name => .addTypeRef _
  rw [importTypeWithin]
  split
  · refine (hrow _).bind fun row _ => ?_
    dsimp only
    split
    · exact hnested _ _
    · exact hassembly _ _
  · refine (hrow _).bind fun row _ => ?_
    dsimp only
    split
    · exact hnested _ _
    · exact hassembly _ _
  · have hspec : KeepsSound (Edit.inspect fun _ => require (source.typeSpec? token) token) (·.sig.Encodes) :=
      .inspect fun _ row _ hr => hsource.typeSpecs row (mem_of_rowAt? (require_eq_ok.mp hr))
    exact hspec.bind fun row hsig => (ihs _ hsig).bind fun sig hsig => .addTypeSpec hsig.1
  · exact .fail _

omit hsource in
include iht ihs in
/-- The parts of a signature keep their shape. -/
theorem importSig_step {sig : TypeSig} (hsig : sig.Encodes) :
    KeepsSound (source.importSigWithin (levels + 1) sig) fun imported =>
      imported.Encodes ∧ imported.isNamed = sig.isNamed := by
  cases sig with
  | «class» token =>
    rw [importSigWithin]
    exact (iht token).bind fun token ht => .pure ⟨TypeSig.encodes_class.mpr ht, rfl⟩
  | valueType token =>
    rw [importSigWithin]
    exact (iht token).bind fun token ht => .pure ⟨TypeSig.encodes_valueType.mpr ht, rfl⟩
  | generic base args =>
    obtain ⟨hnamed, hbase, hargs⟩ := TypeSig.encodes_generic.mp hsig
    rw [importSigWithin]
    have hall : KeepsSound (args.mapM (source.importSigWithin levels)) _ :=
      .mapM fun arg ha => (ihs arg (hargs arg ha)).mono fun _ h => h.1
    refine (ihs base hbase).bind fun base hgood => hall.bind fun args hargs => .pure ⟨?_, rfl⟩
    exact TypeSig.encodes_generic.mpr ⟨hgood.2 ▸ hnamed, hgood.1, hargs.2⟩
  | vector element =>
    rw [importSigWithin]
    exact (ihs element (TypeSig.encodes_vector.mp hsig)).bind fun element he =>
      .pure ⟨TypeSig.encodes_vector.mpr he.1, rfl⟩
  | byRef target =>
    rw [importSigWithin]
    exact (ihs target (TypeSig.encodes_byRef.mp hsig)).bind fun target ht =>
      .pure ⟨TypeSig.encodes_byRef.mpr ht.1, rfl⟩
  | primitive type | typeParam index | methodParam index =>
    rw [importSigWithin]
    exact .pure ⟨hsig, rfl⟩

end Step

/-- A type is imported as a token that names a type, and a signature as one of the same shape. -/
theorem importWithin_keepsSound (levels : Nat) :
    (∀ token, KeepsSound (source.importTypeWithin levels token) Token.NamesType) ∧
      ∀ sig, sig.Encodes → KeepsSound (source.importSigWithin levels sig) fun imported =>
        imported.Encodes ∧ imported.isNamed = sig.isNamed := by
  induction levels with
  | zero =>
    refine ⟨fun token => ?_, fun sig _ => ?_⟩
    · rw [importTypeWithin]
      exact .fail _
    · rw [importSigWithin]
      exact .fail _
  | succ levels ih =>
    obtain ⟨iht, ihs⟩ := ih
    exact ⟨importType_step hsource iht ihs, fun sig hsig => importSig_step iht ihs hsig⟩

theorem importMemberWithin_keepsSound (levels : Nat) (parent : Token) (name : String) {sig : MethodSig}
    (hsig : sig.Encodes) : KeepsSound (source.importMemberWithin levels parent name sig) fun _ => True := by
  obtain ⟨ht, hs⟩ := importWithin_keepsSound hsource levels
  have hencodes : ∀ type : TypeSig, type.Encodes → KeepsSound (source.importSigWithin levels type) (·.Encodes) :=
    fun type he => (hs type he).mono fun _ h => h.1
  have himported : KeepsSound (source.importMethodSigWithin levels sig) (·.Encodes) :=
    (hencodes _ hsig.returnType).bind fun returnType hr =>
      (KeepsSound.mapM fun param hp => hencodes param (hsig.params param hp)).bind fun params hp => .pure ⟨hr, hp.2⟩
  exact (ht parent).bind fun parent _ => himported.bind fun sig hsig => .addMemberRef hsig

theorem importMethod_keepsSound (token : Token) : KeepsSound (source.importMethod token) fun _ => True := by
  have hall : ∀ levels token, KeepsSound (source.importMethodWithin levels token) fun _ => True := by
    intro levels
    induction levels with
    | zero => exact fun _ => .fail _
    | succ levels ih =>
      intro token
      rw [importMethodWithin]
      split
      · have hmethod : ∀ method, source.importableMethod token = .ok method → method.sig.Encodes := by
          intro method h
          obtain ⟨row, hr, h⟩ := bind_eq_ok.mp h
          obtain ⟨owner, -, h⟩ := bind_eq_ok.mp h
          split_ifs at h
          · obtain ⟨_, -, h⟩ := bind_eq_ok.mp h
            cases h
          · cases h
            exact hsource.methods method (mem_of_rowAt? (require_eq_ok.mp hr))
        exact (KeepsSound.inspect fun _ method _ hm => hmethod method hm).bind fun method hm =>
          importMemberWithin_keepsSound hsource levels _ _ hm
      · have hmember : ∀ row, require (source.memberRef? token) token = .ok row → row.sig.Encodes :=
          fun row hr => hsource.memberRefs row (mem_of_rowAt? (require_eq_ok.mp hr))
        exact (KeepsSound.inspect fun _ row _ hr => hmember row hr).bind fun row hr =>
          importMemberWithin_keepsSound hsource levels _ _ hr
      · have hspec : ∀ row, require (source.methodSpec? token) token = .ok row →
            row.args ≠ [] ∧ ∀ arg ∈ row.args, arg.Encodes := fun row hr =>
          hsource.methodSpecs row (mem_of_rowAt? (require_eq_ok.mp hr))
        refine (KeepsSound.inspect fun _ row _ hr => hspec row hr).bind fun row hgood =>
          (ih row.method).bind fun method _ => (KeepsSound.mapM fun arg ha =>
            ((importWithin_keepsSound hsource levels).2 arg (hgood.2 arg ha)).mono fun _ h => h.1).bind
              fun args hargs => .addMethodSpec ⟨?_, hargs.2⟩
        have hpos := List.length_pos_iff.mpr hgood.1
        rw [← List.length_pos_iff]
        rwa [hargs.1]
      · exact .fail _
  exact hall _ token

end Module
end HotPatch
